import Mathlib
import Gleaph.VectorPartition.Rebuild

/-!
# Gleaph.VectorPartition.Copies

Where a rebuild copies a row and where a write of its vector goes.

A write chooses a coarse centroid with the vector as it is sent.  A build chooses it
with the row as it is stored, and from the lowest leaves in place of the coarse
centroids.
-/

namespace Gleaph.VectorPartition

/-! ## What a build copies -/

/-- Every row stands in the group of its place, and in no other. -/
def Places (groups : List (Nat × List PendingRow)) (rows : List PendingRow)
    (place : PendingRow → Nat) : Prop :=
  ∀ row ∈ rows, place row ∈ groups.map Prod.fst ∧
    ∀ group ∈ groups, row ∈ group.2 ↔ group.1 = place row

/-- A group holds all rows of its key, and some row has the key. -/
theorem mem_groupBy {α : Type} {key : α → Nat} {rows : List α} {group : Nat × List α} :
    group ∈ groupBy key rows ↔ group.1 ∈ rows.map key ∧
      rows.filter (key · = group.1) = group.2 := by
  rw [groupBy, List.mem_map]
  constructor
  · rintro ⟨k, hk, rfl⟩
    exact ⟨by simpa using hk, rfl⟩
  · rintro ⟨hk, hrows⟩
    exact ⟨group.1, by simpa using hk, by rw [hrows]⟩

/-- Grouped rows stand in the groups of their keys. -/
theorem places_groupBy (key : PendingRow → Nat) (rows : List PendingRow) :
    Places (groupBy key rows) rows key := by
  intro row hrow
  refine ⟨?_, fun group hgroup => ?_⟩
  · exact List.mem_map.mpr ⟨(key row, rows.filter (key · = key row)),
      mem_groupBy.mpr ⟨List.mem_map_of_mem hrow, rfl⟩, rfl⟩
  · rw [← (mem_groupBy.mp hgroup).2]
    simp [hrow, eq_comm]

/-- Rows that are grouped with their places stand where they are placed. -/
theorem places_of_placed {placed : List (Nat × PendingRow)} {rows : List PendingRow}
    {place : PendingRow → Nat}
    (h : ∀ entry, entry ∈ placed ↔ entry.2 ∈ rows ∧ entry.1 = place entry.2) :
    Places ((groupBy Prod.fst placed).map fun group => (group.1, group.2.map Prod.snd)) rows
      place := by
  intro row hrow
  have hentry : (place row, row) ∈ placed := (h _).mpr ⟨hrow, rfl⟩
  refine ⟨?_, fun group hgroup => ?_⟩
  · rw [List.map_map]
    exact List.mem_map.mpr ⟨(place row, placed.filter (·.1 = place row)),
      mem_groupBy.mpr ⟨List.mem_map_of_mem hentry, rfl⟩, rfl⟩
  · obtain ⟨byLeaf, hbyLeaf, rfl⟩ := List.mem_map.mp hgroup
    rw [← (mem_groupBy.mp hbyLeaf).2]
    simp [h, hrow, eq_comm]

/-- The rows of the buckets with their places are the rows with their places. -/
theorem mem_flatten_groupBy (key : PendingRow → Nat) (place : Nat → PendingRow → Nat)
    {rows : List PendingRow} (entry : Nat × PendingRow) :
    entry ∈ ((groupBy key rows).map fun group =>
        group.2.map fun row => (place group.1 row, row)).flatten ↔
      entry.2 ∈ rows ∧ entry.1 = place (key entry.2) entry.2 := by
  simp only [List.mem_flatten, List.mem_map]
  constructor
  · rintro ⟨-, ⟨group, hgroup, rfl⟩, hentry⟩
    obtain ⟨row, hrow, rfl⟩ := List.mem_map.mp hentry
    rw [← (mem_groupBy.mp hgroup).2, List.mem_filter, decide_eq_true_eq] at hrow
    exact ⟨hrow.1, by rw [hrow.2]⟩
  · rintro ⟨hrow, hplace⟩
    refine ⟨_, ⟨(key entry.2, rows.filter (key · = key entry.2)),
      mem_groupBy.mpr ⟨List.mem_map_of_mem hrow, rfl⟩, rfl⟩, ?_⟩
    exact List.mem_map.mpr ⟨entry.2, by simpa using hrow, by rw [← hplace]⟩

/-- The place of a copy in a flat generation. -/
theorem buildingStep_flat (hphase : s.rebuild = .building target) (hflat : target.levels ≠ 2)
    (hread : readCentroidsAt s.centroids indexId target.version target.nlist dims =
      some centroids) (rows : List PendingRow) (exhausted : Bool) :
    ∃ groups, buildingStep indexId s dims rows exhausted =
        .ok (groups, if exhausted then { s with rebuild := .readyToPublish target } else s) ∧
      Places groups rows fun row => assignPartition centroids row.stored := by
  refine ⟨_, ?_, places_groupBy _ rows⟩
  simp only [buildingStep, hphase, hread, if_neg hflat, pure_eq_ok, ok_bind]

/-- The place of a copy in a two-level generation. -/
theorem buildingStep_twoLevel (hphase : s.rebuild = .building target) (htwo : target.levels = 2)
    (hread : readCentroidsAt s.centroids indexId target.version target.nlist dims =
      some centroids) (hne : centroids ≠ []) {children : Nat → List (QuantizedI8Vector dims)}
    (hchildren : ∀ c < centroids.length, readLeafChildrenAt s.centroids indexId target.version c
      target.nlistFine dims = some (children c)) (rows : List PendingRow) (exhausted : Bool) :
    ∃ groups, buildingStep indexId s dims rows exhausted =
        .ok (groups, if exhausted then { s with rebuild := .readyToPublish target } else s) ∧
      Places groups rows fun row =>
        assignPartition centroids row.stored * target.nlistFine +
          assignPartition (children (assignPartition centroids row.stored)) row.stored := by
  refine ⟨_, ?_, places_of_placed fun entry => mem_flatten_groupBy
    (fun row => assignPartition centroids row.stored)
    (fun c row => c * target.nlistFine + assignPartition (children c) row.stored) entry⟩
  simp only [buildingStep, hphase, hread, if_pos htwo, pure_eq_ok]
  rw [mapM_eq_ok (g := fun group => group.2.map fun row =>
    (group.1 * target.nlistFine + assignPartition (children group.1) row.stored, row))]
  · rfl
  · intro group hgroup
    obtain ⟨row, -, hrow⟩ := List.mem_map.mp (mem_groupBy.mp hgroup).1
    rw [hchildren group.1 (hrow ▸ (isNearest_assignPartition hne _).lt_length)]

/-! ## Copies and writes -/

/-- The phase a sampling ends with. -/
def trainingRecord (target : Generation) : VectorRebuildStateRecord :=
  if target.levels = 2 then .trainCoarse target else .training target

/-- The leaves under a coarse centroid. -/
def childrenOf (leaves : List (F32Vector dims)) (nlistFine coarse : Nat) :
    List (QuantizedI8Vector dims) :=
  ((leaves.drop (coarse * nlistFine)).take nlistFine).map quantizeF32ToI8

/-- The lowest leaves, as many as there are coarse centroids. -/
def lowestOf (leaves : List (F32Vector dims)) (nlist : Nat) : List (QuantizedI8Vector dims) :=
  (leaves.take nlist).map quantizeF32ToI8

/-- The vector as it is sent and as it is stored have one nearest centroid.  Under two
levels the coarse centroid nearest to the vector as sent has the number of the lowest
leaf nearest to the vector as stored, and both have one nearest leaf under it. -/
def WorkArea.PlacesAlike (target : Generation) (sent stored : F32Vector dims) :
    WorkArea dims → Prop
  | .flat work => ∃ p, IsNearest (work.map quantizeF32ToI8) sent.1 p ∧
      IsNearest (work.map quantizeF32ToI8) stored.1 p
  | .twoLevel coarse jobs =>
    let leaves := allLeaves target.nlistFine coarse jobs
    ∃ c l, IsNearest (coarse.map quantizeF32ToI8) sent.1 c ∧
      IsNearest (lowestOf leaves target.nlist) stored.1 c ∧
      IsNearest (childrenOf leaves target.nlistFine c) sent.1 l ∧
      IsNearest (childrenOf leaves target.nlistFine c) stored.1 l

/-- A complete generation is published, and writes then choose in it as the mirrored
writes did. -/
theorem adminPublishVectorRebuild_active
    (hleaves : (readCentroidsAt s.centroids indexId target.version
      (if target.levels = 2 then target.nlist * target.nlistFine else target.nlist) dims).isSome)
    (hcoarse : target.levels = 2 →
      (readCoarseCentroidsAt s.centroids indexId target.version target.nlist dims).isSome) :
    ∃ published,
      adminPublishVectorRebuild indexId { s with rebuild := .readyToPublish target } dims =
        .ok published ∧
      ∀ v : F32Vector dims, activePartition indexId published v =
        shadowPartition indexId s target v := by
  have hbound : (if target.levels = 2 then target.nlist * target.nlistFine else target.nlist) <
      2 ^ 32 := by
    have := target.leaves_le
    rcases target.shape with ⟨hlevels, hfine⟩ | ⟨hlevels, -⟩
    · rw [if_neg (by omega)]
      rw [hfine] at this
      omega
    · rw [if_pos hlevels]
      omega
  have hcomplete := (eq_or_ne target.levels 2).symm.imp_right hcoarse
  refine ⟨_, if_pos ⟨hbound, hleaves, hcomplete⟩, fun v => ?_⟩
  · have htwo : target.levels = 2 ↔ 1 < target.nlistFine := by
      rcases target.shape with h | h <;> omega
    simp only [activePartition, shadowPartition, if_neg (Nat.not_le.mpr target.nlist_gt), htwo]

theorem train_flat_inv {work : List (F32Vector dims)} (hstart : s.rebuild = trainingRecord target)
    (h : train indexId s (.flat work) = .ok trained) :
    target.levels ≠ 2 ∧ work.length = target.nlist ∧ trained = { s with
      centroids := writeLevel s.centroids indexId target.version false 0 work
      rebuild := .building target } := by
  rw [train, trainingStep, hstart, trainingRecord] at h
  by_cases hlevels : target.levels = 2
  · simp [hlevels] at h
  · by_cases hlength : work.length = target.nlist
    · simp only [if_neg hlevels, hlength, ne_eq, not_true_eq_false, if_false] at h
      exact ⟨hlevels, hlength, (Except.ok.inj h).symm⟩
    · simp [hlevels, hlength] at h

theorem train_twoLevel_inv {coarse : List (F32Vector dims)} {jobs : List (SubtreeJob dims)}
    (hstart : s.rebuild = trainingRecord target)
    (h : train indexId s (.twoLevel coarse jobs) = .ok trained)
    (hphase : trained.rebuild = .building target) :
    target.levels = 2 ∧ coarse.length = target.nlist ∧
      trained = fineState indexId s target coarse jobs ∧
      (allLeaves target.nlistFine coarse jobs).length = target.nlist * target.nlistFine := by
  obtain ⟨s₁, hcoarseStep, hjobs⟩ := bind_inv h
  rw [trainCoarseStep, hstart, trainingRecord] at hcoarseStep
  by_cases hlevels : target.levels = 2
  swap
  · simp [hlevels] at hcoarseStep
  by_cases hlength : coarse.length = target.nlist
  swap
  · simp [hlevels, hlength] at hcoarseStep
  have hs₁ : s₁ = fineState indexId s target coarse ([] : List (SubtreeJob dims)) := by
    simp only [hlevels, if_true, hlength, ne_eq, not_true_eq_false, if_false] at hcoarseStep
    rw [← Except.ok.inj hcoarseStep, fineState, fineRecord]
    simp [allLeaves, writeLevel, Nat.zero_lt_of_lt target.nlist_gt]
  rw [hs₁] at hjobs
  obtain ⟨rfl, hle, hleaves⟩ := foldlM_trainFineStep hlength hjobs
  -- the run has reached the build, so no subtree is missing
  have hall : jobs.length = target.nlist := by
    rcases Nat.lt_or_ge jobs.length target.nlist with hlt | hge
    · simp [fineState, fineRecord, hlt] at hphase
    · omega
  exact ⟨hlevels, hlength, rfl, hall ▸ hleaves⟩

/-- A leaf determines its subtree. -/
theorem leaf_eq_iff {f c l c' l' : Nat} (hl : l < f) (hl' : l' < f) :
    c * f + l = c' * f + l' ↔ c = c' ∧ l = l' := by
  have hdiv : ∀ c l : Nat, l < f → (c * f + l) / f = c := fun c l h => by
    rw [Nat.mul_comm, Nat.mul_add_div (Nat.zero_lt_of_lt h), Nat.div_eq_of_lt h, Nat.add_zero]
  constructor
  · intro h
    obtain rfl : c = c' := by rw [← hdiv c l hl, h, hdiv c' l' hl']
    exact ⟨rfl, Nat.add_left_cancel h⟩
  · rintro ⟨rfl, rfl⟩
    rfl

/-- A flat generation: writes and copies choose from one set. -/
theorem flat_place_iff {work : List (F32Vector dims)} (hlevels : target.levels ≠ 2)
    (hlength : work.length = target.nlist)
    (hread : readCentroidsAt s.centroids indexId target.version target.nlist dims =
      some (work.map quantizeF32ToI8)) (sent stored : F32Vector dims) (padding : List ℚ) :
    shadowPartition indexId s target sent =
        assignPartition (work.map quantizeF32ToI8) (stored.1 ++ padding) ↔
      (WorkArea.flat work).PlacesAlike target sent stored := by
  have hfine : ¬1 < target.nlistFine := by
    rcases target.shape with h | h <;> omega
  have hne : work.map quantizeF32ToI8 ≠ [] := by
    have := target.nlist_gt
    rw [← List.length_pos_iff, List.length_map]
    omega
  simp only [shadowPartition, chosen, hfine, hread, decide_false, Bool.false_eq_true, if_false,
    Option.elim_some, assignPartition_padded, WorkArea.PlacesAlike, assignPartition_eq_iff hne]
  constructor
  · exact fun h => ⟨_, h, isNearest_assignPartition hne stored.1⟩
  · rintro ⟨p, hsent, hstored⟩
    rwa [(assignPartition_eq_iff hne).mpr hstored]

section TwoLevel

variable {coarse : List (F32Vector dims)} {jobs : List (SubtreeJob dims)}

/-- Each subtree has the fixed number of leaves. -/
theorem length_childrenOf {leaves : List (F32Vector dims)}
    (hleaves : leaves.length = nlist * nlistFine) (hc : c < nlist) :
    (childrenOf leaves nlistFine c).length = nlistFine := by
  have := Nat.mul_le_mul_right nlistFine (Nat.succ_le_of_lt hc)
  rw [Nat.succ_mul] at this
  simp only [childrenOf, List.length_map, List.length_take, List.length_drop]
  omega

/-- There are as many low leaves as coarse centroids. -/
theorem length_lowestOf {leaves : List (F32Vector dims)}
    (hleaves : leaves.length = nlist * nlistFine) (hfine : 0 < nlistFine) :
    (lowestOf leaves nlist).length = nlist := by
  have := Nat.le_mul_of_pos_right nlist hfine
  simp only [lowestOf, List.length_map, List.length_take]
  omega

/-- A write goes under its nearest coarse centroid, a copy under the coarse centroid with
the number of its nearest low leaf. -/
theorem twoLevel_place_iff (hlevels : target.levels = 2) (hlength : coarse.length = target.nlist)
    (hleaves : (allLeaves target.nlistFine coarse jobs).length = target.nlist * target.nlistFine)
    (hcoarse : readCoarseCentroidsAt s.centroids indexId target.version target.nlist dims =
      some (coarse.map quantizeF32ToI8))
    (hchildren : ∀ c < target.nlist, readLeafChildrenAt s.centroids indexId target.version c
      target.nlistFine dims =
        some (childrenOf (allLeaves target.nlistFine coarse jobs) target.nlistFine c))
    (sent stored : F32Vector dims) (padding : List ℚ) :
    let leaves := allLeaves target.nlistFine coarse jobs
    let c := assignPartition (lowestOf leaves target.nlist) (stored.1 ++ padding)
    shadowPartition indexId s target sent = c * target.nlistFine +
        assignPartition (childrenOf leaves target.nlistFine c) (stored.1 ++ padding) ↔
      (WorkArea.twoLevel coarse jobs).PlacesAlike target sent stored := by
  intro leaves c
  have hfine : 1 < target.nlistFine := by
    rcases target.shape with h | h <;> omega
  have hpos : 0 < target.nlist := Nat.zero_lt_of_lt target.nlist_gt
  have hlowest := length_lowestOf hleaves (Nat.zero_lt_of_lt hfine)
  have hcoarseLength : (coarse.map quantizeF32ToI8).length = target.nlist := by
    rw [List.length_map, hlength]
  -- each choice is the nearest of a set that is not empty
  have hsent := isNearest_assignPartition (List.ne_nil_of_length_pos (hcoarseLength ▸ hpos)) sent.1
  have hstored := isNearest_assignPartition (List.ne_nil_of_length_pos (hlowest ▸ hpos)) stored.1
  have hchild : ∀ c < target.nlist, ∀ v, IsNearest (childrenOf leaves target.nlistFine c) v
      (assignPartition (childrenOf leaves target.nlistFine c) v) := fun c hc =>
    isNearest_assignPartition (List.ne_nil_of_length_pos
      ((length_childrenOf hleaves hc).symm ▸ Nat.zero_lt_of_lt hfine))
  have hlt₀ := hsent.lt_length.trans_eq hcoarseLength
  have hlt : c < target.nlist := by
    rw [show c = _ from assignPartition_padded stored padding]
    exact hstored.lt_length.trans_eq hlowest
  have hshadow : shadowPartition indexId s target sent =
      assignPartition (coarse.map quantizeF32ToI8) sent.1 * target.nlistFine + assignPartition
        (childrenOf leaves target.nlistFine (assignPartition (coarse.map quantizeF32ToI8) sent.1))
        sent.1 := by
    simp only [shadowPartition, chosen, hfine, hcoarse, hchildren _ hlt₀, decide_true, if_true]
    rfl
  rw [← show c = _ from assignPartition_padded stored padding] at hstored
  have hleaf : ∀ c < target.nlist, ∀ v,
      assignPartition (childrenOf leaves target.nlistFine c) v < target.nlistFine :=
    fun c hc v => (hchild c hc v).lt_length.trans_eq (length_childrenOf hleaves hc)
  rw [hshadow, assignPartition_padded, leaf_eq_iff (hleaf _ hlt₀ _) (hleaf _ hlt _)]
  constructor
  · rintro ⟨hc, hl⟩
    rw [hc] at hl hsent
    exact ⟨c, _, hsent, hstored, hl ▸ hchild c hlt sent.1, hchild c hlt stored.1⟩
  · rintro ⟨c', l, hsent', hstored', hchild₁, hchild₂⟩
    obtain rfl := hstored.unique hstored'
    rw [hsent.unique hsent']
    exact ⟨rfl, ((hchild c hlt sent.1).unique hchild₁).trans
      ((hchild c hlt stored.1).unique hchild₂).symm⟩

end TwoLevel

/-- What the store answers behind a two-level training. -/
theorem reads_fineState {coarse : List (F32Vector dims)} {jobs : List (SubtreeJob dims)}
    (hlength : coarse.length = target.nlist)
    (hleaves : (allLeaves target.nlistFine coarse jobs).length = target.nlist * target.nlistFine) :
    let store := (fineState indexId s target coarse jobs).centroids
    let leaves := allLeaves target.nlistFine coarse jobs
    readCoarseCentroidsAt store indexId target.version target.nlist dims =
        some (coarse.map quantizeF32ToI8) ∧
      (∀ count ≤ leaves.length, readCentroidsAt store indexId target.version count dims =
        some (lowestOf leaves count)) ∧
      ∀ c < target.nlist, readLeafChildrenAt store indexId target.version c target.nlistFine dims =
        some (childrenOf leaves target.nlistFine c) := by
  intro store leaves
  refine ⟨?_, fun count hcount => ?_, fun c hc => ?_⟩
  · have hother : readCoarseCentroidsAt store indexId target.version target.nlist dims =
        readCoarseCentroidsAt (writeLevel s.centroids indexId target.version true 0 coarse) indexId
          target.version target.nlist dims := by
      simp only [readCoarseCentroidsAt, readLevel, store, fineState]
      refine congrArg (List.mapM · _) (funext fun p => ?_)
      rw [writeLevel_other_level _ _ _ (Bool.noConfusion : true ≠ false)]
    rw [hother, readCoarseCentroidsAt, readLevel_writeLevel _ _ _ _ (by omega), List.drop_zero,
      ← hlength, List.take_length]
  · exact readLevel_writeLevel _ _ _ _ ((Nat.zero_add count).trans_le hcount)
  · have hsub := Nat.mul_le_mul_right target.nlistFine (Nat.succ_le_of_lt hc)
    have := target.leaves_le
    rw [Nat.succ_mul] at hsub
    rw [readLeafChildrenAt, if_pos (by omega)]
    exact readLevel_writeLevel _ _ _ _ (by omega)

/-- The build, the publication and the choice of the writes together. -/
theorem exists_copy {indexId : Nat} {s : State} {target : Generation} {rows : List PendingRow}
    {row : PendingRow} {place : PendingRow → Nat} {alike : Prop} {sent : F32Vector dims}
    (hbuild : ∃ groups built, buildingStep indexId s dims rows exhausted = .ok (groups, built) ∧
      Places groups rows place) (hrow : row ∈ rows)
    (hpublish : ∃ published,
      adminPublishVectorRebuild indexId { s with rebuild := .readyToPublish target } dims =
        .ok published ∧
      ∀ v : F32Vector dims, activePartition indexId published v =
        shadowPartition indexId s target v)
    (hshadow : shadowPartition indexId s target sent = place row ↔ alike) :
    ∃ groups built published p,
      buildingStep indexId s dims rows exhausted = .ok (groups, built) ∧
      adminPublishVectorRebuild indexId { s with rebuild := .readyToPublish target } dims =
        .ok published ∧
      p ∈ groups.map Prod.fst ∧ (∀ group ∈ groups, row ∈ group.2 ↔ group.1 = p) ∧
      (shadowPartition indexId s target sent = p ∧ activePartition indexId published sent = p ↔
        alike) := by
  obtain ⟨groups, built, hgroups, hplaces⟩ := hbuild
  obtain ⟨published, hok, hactive⟩ := hpublish
  obtain ⟨hmem, honly⟩ := hplaces row hrow
  refine ⟨groups, built, published, place row, hgroups, hok, hmem, honly, ?_⟩
  rw [hactive, and_self, hshadow]

/-- A rebuild of trained centroids builds and publishes, and the partition it copies a
row to is the one the writes of its vector choose, while it is built and behind its
publication, if and only if the centroids place the vector as sent and as stored
alike. -/
theorem copies_agree_with_writes_iff (indexId : Nat) (sqrt : ℚ → ℚ) (s trained : State)
    (target : Generation) (work : WorkArea dims) (hstart : s.rebuild = trainingRecord target)
    (htrain : train indexId s work = .ok trained) (hphase : trained.rebuild = .building target)
    (rows : List PendingRow) (exhausted : Bool) (subject : Nat) (sent : F32Vector dims)
    (row : PendingRow) (hslot : appendSlot sqrt s.definition subject sent = some row)
    (hrow : row ∈ rows) :
    ∃ groups built published p,
      buildingStep indexId trained dims rows exhausted = .ok (groups, built) ∧
      adminPublishVectorRebuild indexId { trained with rebuild := .readyToPublish target } dims =
        .ok published ∧
      p ∈ groups.map Prod.fst ∧ (∀ group ∈ groups, row ∈ group.2 ↔ group.1 = p) ∧
      (shadowPartition indexId trained target sent = p ∧
          activePartition indexId published sent = p ↔
        ∃ stored, prepareForMetric sqrt s.definition.metric sent = some stored ∧
          work.PlacesAlike target sent stored) := by
  obtain ⟨stored, hstored, rfl⟩ := Option.map_eq_some_iff.mp hslot
  simp only [hstored, Option.some.injEq, exists_eq_left']
  cases work with
  | flat work =>
    obtain ⟨hlevels, hlength, rfl⟩ := train_flat_inv hstart htrain
    have hread : readCentroidsAt (writeLevel s.centroids indexId target.version false 0 work)
        indexId target.version target.nlist dims = some (work.map quantizeF32ToI8) := by
      rw [readCentroidsAt, readLevel_writeLevel _ _ _ _ (by omega), List.drop_zero, ← hlength,
        List.take_length]
    obtain ⟨groups, hbuild, hplaces⟩ := buildingStep_flat hphase hlevels hread rows exhausted
    refine exists_copy ⟨groups, _, hbuild, hplaces⟩ hrow
      (adminPublishVectorRebuild_active ?_ (fun h => absurd h hlevels))
      (flat_place_iff hlevels hlength hread sent stored _)
    rw [if_neg hlevels, hread, Option.isSome_some]
  | twoLevel coarse jobs =>
    obtain ⟨hlevels, hlength, rfl, hleaves⟩ := train_twoLevel_inv hstart htrain hphase
    obtain ⟨hcoarse, hlowest, hchildren⟩ := reads_fineState hlength hleaves
    have hfine : 0 < target.nlistFine := by
      rcases target.shape with h | h <;> omega
    have hle := Nat.le_mul_of_pos_right target.nlist hfine
    have hsize := length_lowestOf hleaves hfine
    obtain ⟨groups, hbuild, hplaces⟩ := buildingStep_twoLevel hphase hlevels
      (hlowest target.nlist (hleaves ▸ hle))
      (List.ne_nil_of_length_pos (by have := target.nlist_gt; omega))
      (fun c hc => hchildren c (hc.trans_eq hsize)) rows exhausted
    refine exists_copy ⟨groups, _, hbuild, hplaces⟩ hrow
      (adminPublishVectorRebuild_active ?_ (fun _ => by rw [hcoarse, Option.isSome_some]))
      (twoLevel_place_iff hlevels hlength hleaves hcoarse hchildren sent stored _)
    rw [if_pos hlevels, hlowest _ hleaves.ge, Option.isSome_some]

/-- In a flat generation of unnormalised rows copies and writes always agree. -/
theorem placesAlike_flat (target : Generation) {work : List (F32Vector dims)} (h : work ≠ [])
    (v : F32Vector dims) : (WorkArea.flat work).PlacesAlike target v v :=
  have hnear := isNearest_assignPartition (mt List.map_eq_nil_iff.mp h) v.1
  ⟨_, hnear, hnear⟩

/-! ## Two levels -/

/-- A vector along the first of four axes. -/
def along (x : ℚ) : F32Vector 4 := ⟨[x, 0, 0, 0], rfl⟩

/-- Two coarse centroids with two leaves each. -/
def twoByTwo : Generation := ⟨1, 2, 2, 2, by decide, by decide, by decide⟩

/-- What the training makes of the rows -1, 1, 99 and 101: coarse centroids 100 and 0,
leaves 99 and 101, -1 and 1. -/
def fourRows : WorkArea 4 :=
  .twoLevel [along 100, along 0]
    [⟨2, [along 99, along 101], along 100⟩, ⟨2, [along (-1), along 1], along 0⟩]

/-- An index of the metric that has sampled its rows. -/
def sampled (metric : VectorMetric) : State :=
  ⟨fun _ => none, ⟨metric, 1, 0, 1, 1, 0⟩, trainingRecord twoByTwo⟩

/-- The row 101 belongs to leaf 1 and is copied to leaf 3: the build takes the leaves 99
and 101 for its coarse set. -/
theorem copy_leaves_its_subtree :
    (do
      let trained ← train 0 (sampled .l2Squared) fourRows
      let (groups, built) ← buildingStep 0 trained 4 [⟨7, (along 101).1⟩] true
      let published ← adminPublishVectorRebuild 0 built 4
      return (groups.map Prod.fst, shadowPartition 0 trained twoByTwo (along 101),
        activePartition 0 published (along 101))).toOption = some ([3], 1, 1) := by
  decide +kernel

/-- The row 99 is copied to leaf 0, where its writes go too. -/
theorem copies_agree_with_writes_iff_low :
    ∃ trained, train 0 (sampled .l2Squared) fourRows = .ok trained ∧
      ∃ groups built published p,
        buildingStep 0 trained 4 [⟨7, (along 99).1⟩] true = .ok (groups, built) ∧
        p ∈ groups.map Prod.fst ∧
        (shadowPartition 0 trained twoByTwo (along 99) = p ∧
            activePartition 0 published (along 99) = p ↔
          ∃ stored, prepareForMetric id .l2Squared (along 99) = some stored ∧
            fourRows.PlacesAlike twoByTwo (along 99) stored) := by
  refine ⟨_, rfl, ?_⟩
  obtain ⟨groups, built, published, p, hbuild, -, hmem, -, hagree⟩ :=
    copies_agree_with_writes_iff 0 id (sampled .l2Squared) _ twoByTwo fourRows rfl rfl rfl
      [⟨7, (along 99).1⟩] true 7 (along 99) _ rfl (by simp [sampled])
  exact ⟨groups, built, published, p, hbuild, hmem, hagree⟩

end Gleaph.VectorPartition
