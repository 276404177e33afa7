import Mathlib
import Gleaph.Panic
import Gleaph.VectorPartition.Nearest

/-!
# Gleaph.VectorPartition.Rebuild

The rebuild of a vector index
(`crates/vector-canister/src/facade/store/{rebuild,mutation,search}.rs`).

A rebuild trains the centroids of the next generation, copies the rows into it and
publishes it; a write chooses in the rebuild's generation while it is built and in
the active one behind the publication.

A training step is modelled by the call that ends the training, with any work area
its iterations may have left.  Sampling, the k-means iterations, the scan of the
subjects and the pages are not modelled, nor is the cleaning behind a publication.
-/

namespace Gleaph.VectorPartition

/-! ## The centroid store -/

/-- Coarse centroids have a level of their own. -/
structure PartitionKey where
  indexId : Nat
  indexVersion : Nat
  coarse : Bool
  partitionId : Nat
  deriving DecidableEq

/-- `IVF_CENTROIDS`. -/
abbrev Centroids := PartitionKey → Option (List Int × ℚ)

section Store

variable (store : Centroids) (indexId version : Nat)

/-- The centroids of a level from `base` on, if none is missing. -/
def readLevel (dims : Nat) (coarse : Bool) (base count : Nat) :
    Option (List (QuantizedI8Vector dims)) :=
  (List.range count).mapM fun p =>
    store ⟨indexId, version, coarse, base + p⟩ >>= splitCentroidI8 dims

def readCentroidsAt (nlist dims : Nat) : Option (List (QuantizedI8Vector dims)) :=
  readLevel store indexId version dims false 0 nlist

def readCoarseCentroidsAt (nlist dims : Nat) : Option (List (QuantizedI8Vector dims)) :=
  readLevel store indexId version dims true 0 nlist

/-- The product is a checked one. -/
def readLeafChildrenAt (coarse nlistFine dims : Nat) : Option (List (QuantizedI8Vector dims)) :=
  if coarse * nlistFine < 2 ^ 32 then
    readLevel store indexId version dims false (coarse * nlistFine) nlistFine
  else none

/-- Centroids are quantized and written to consecutive keys of a level. -/
def writeLevel (coarse : Bool) (base : Nat) (centroids : List (F32Vector dims)) : Centroids :=
  centroids.zipIdx.foldl (fun store entry =>
    Function.update store ⟨indexId, version, coarse, base + entry.2⟩
      (some (encodeCentroidI8 entry.1))) store

/-- Two writes of one level, the second behind the first, are one write. -/
theorem writeLevel_append (first second : List (F32Vector dims)) :
    writeLevel (writeLevel store indexId version coarse base first) indexId version coarse
        (base + first.length) second =
      writeLevel store indexId version coarse base (first ++ second) := by
  simp only [writeLevel, List.zipIdx_append, List.foldl_append, zero_add]
  rw [List.zipIdx_eq_map_add (i := first.length), List.foldl_map]
  simp only [add_assoc]

/-- A write of one level leaves the other. -/
theorem writeLevel_other_level (h : key.coarse ≠ coarse) (centroids : List (F32Vector dims)) :
    writeLevel store indexId version coarse base centroids key = store key := by
  induction centroids using List.reverseRecOn with
  | nil => rfl
  | append_singleton init c ih =>
    rw [← writeLevel_append]
    refine (Function.update_of_ne (fun heq => h ?_) _ _).trans ih
    rw [heq]

/-- A written key holds its centroid. -/
theorem writeLevel_self (coarse : Bool) (base : Nat) (centroids : List (F32Vector dims))
    (hp : centroids[p]? = some c) :
    writeLevel store indexId version coarse base centroids
      ⟨indexId, version, coarse, base + p⟩ = some (encodeCentroidI8 c) := by
  induction centroids using List.reverseRecOn with
  | nil => simp at hp
  | append_singleton init last ih =>
    rw [← writeLevel_append]
    rcases lt_trichotomy p init.length with hlt | rfl | hgt
    · rw [List.getElem?_append_left hlt] at hp
      refine (Function.update_of_ne (fun heq => ?_) _ _).trans (ih hp)
      have := congrArg PartitionKey.partitionId heq
      simp at this
      omega
    · obtain rfl : last = c := by simpa using hp
      exact Function.update_self _ _ _
    · exact absurd (List.getElem?_eq_some_iff.mp hp).1 (by simp; omega)

/-- A level is read back, as a whole or in part. -/
theorem readLevel_writeLevel (centroids : List (F32Vector dims))
    (h : base + count ≤ centroids.length) :
    readLevel (writeLevel store indexId version coarse 0 centroids) indexId version dims coarse
      base count = some (((centroids.drop base).take count).map quantizeF32ToI8) := by
  induction count with
  | zero => rfl
  | succ count ih =>
    have hlt : base + count < centroids.length := by omega
    have hself := writeLevel_self store indexId version coarse 0 centroids
      (List.getElem?_eq_getElem hlt)
    rw [zero_add] at hself
    have hread := ih (by omega)
    rw [readLevel] at hread ⊢
    rw [List.range_succ, List.mapM_append, hread, List.take_add_one]
    simp [hself, hlt]

end Store

/-! ## The rebuild -/

/-- A generation as the start of its rebuild fixes it: one level with one fine list,
or two levels; `MAX_LEAVES` bounds the product. -/
structure Generation where
  version : Nat
  nlist : Nat
  levels : Nat
  nlistFine : Nat
  nlist_gt : 1 < nlist
  shape : levels = 1 ∧ nlistFine = 1 ∨ levels = 2 ∧ 1 < nlistFine
  leaves_le : nlist * nlistFine ≤ 65536

/-- The phases behind the sampling; a training phase holds its target. -/
inductive VectorRebuildStateRecord where
  | training (target : Generation)
  | trainCoarse (target : Generation)
  | trainFine (target : Generation) (coarseCursor : Nat)
  | building (target : Generation)
  | readyToPublish (target : Generation)
  | cleaning (oldVersion oldNlist oldLevels oldNlistFine targetIndexVersion : Nat)

structure VectorIndexDef where
  metric : VectorMetric
  nlist : Nat
  activeIndexVersion : Nat
  levels : Nat
  nlistFine : Nat
  /-- Zero components behind a stored row, to the padded stride. -/
  padding : Nat

inductive VectorCanisterError where
  | rebuildPoolInvalid
  | rebuildIncomplete
  | rebuildNotReadyToPublish
  /-- A step called off its phase, which the source has as `unreachable!`. -/
  | unreachable

/-- The index `indexId` and its rebuild. -/
structure State where
  centroids : Centroids
  definition : VectorIndexDef
  rebuild : VectorRebuildStateRecord

/-- A row to be copied: its subject and its stored components. -/
structure PendingRow where
  subject : Nat
  stored : List ℚ

/-- The fine job of one subtree: how many pool rows are nearest to its coarse
centroid, the work area behind the last iteration over them, and their mean. -/
structure SubtreeJob (dims : Nat) where
  members : Nat
  work : List (F32Vector dims)
  mean : F32Vector dims

/-- The squared distance of two vectors of the work area. -/
def l2SquaredF32 (a b : List ℚ) : ℚ :=
  ((a.zip b).map fun (x, y) => (x - y) ^ 2).sum

/-- Missing leaves are copies of the trained one nearest to the mean of the
members. -/
def completeSubtreeLeafCentroids (work : List (F32Vector dims)) (mean : F32Vector dims)
    (f : Nat) : List (F32Vector dims) :=
  let best := (work.zipIdx.foldl (fun (best : Nat × WithTop ℚ) (c, p) =>
    let d : WithTop ℚ := l2SquaredF32 c.1 mean.1
    if d < best.2 then (p, d) else best) (0, ⊤)).1
  work ++ List.replicate (f - work.length) (work.getD best mean)

section Steps

variable (indexId : Nat) (s : State)

/-- The last `training_step` of a flat rebuild. -/
def trainingStep (work : List (F32Vector dims)) : Except VectorCanisterError State :=
  match s.rebuild with
  | .training target =>
    if work.length ≠ target.nlist then .error .rebuildPoolInvalid
    else .ok { s with
      centroids := writeLevel s.centroids indexId target.version false 0 work
      rebuild := .building target }
  | _ => .error .unreachable

/-- The last `train_coarse_step` of a two-level rebuild. -/
def trainCoarseStep (work : List (F32Vector dims)) : Except VectorCanisterError State :=
  match s.rebuild with
  | .trainCoarse target =>
    if work.length ≠ target.nlist then .error .rebuildPoolInvalid
    else .ok { s with
      centroids := writeLevel s.centroids indexId target.version true 0 work
      rebuild := .trainFine target 0 }
  | _ => .error .unreachable

def advanceAfterSubtree (target : Generation) (completedCoarse : Nat) : VectorRebuildStateRecord :=
  if target.nlist ≤ completedCoarse + 1 then .building target
  else .trainFine target (completedCoarse + 1)

/-- The leaves of a subtree: copies of its coarse centroid if it has no member. -/
def subtreeLeaves (coarse : Option (QuantizedI8Vector dims)) (target : Generation)
    (job : SubtreeJob dims) : Except VectorCanisterError (List (F32Vector dims)) :=
  if job.members = 0 then
    match coarse with
    | none => .error .rebuildIncomplete
    | some c => .ok (List.replicate target.nlistFine (decodeI8ToF32 c))
  else if job.work.length ≠ min target.nlistFine job.members then .error .rebuildPoolInvalid
  else .ok (completeSubtreeLeafCentroids job.work job.mean target.nlistFine)

/-- The last `train_fine_step` of a subtree. -/
def trainFineStep (job : SubtreeJob dims) : Except VectorCanisterError State :=
  match s.rebuild with
  | .trainFine target cursor => do
    if target.nlist ≤ cursor then throw .rebuildPoolInvalid
    let coarse := s.centroids ⟨indexId, target.version, true, cursor⟩ >>= splitCentroidI8 dims
    let leaves ← subtreeLeaves coarse target job
    return { s with
      centroids := writeLevel s.centroids indexId target.version false
        (cursor * target.nlistFine) leaves
      rebuild := advanceAfterSubtree target cursor }
  | _ => .error .unreachable

/-- The work areas a training ends with. -/
inductive WorkArea (dims : Nat) where
  | flat (work : List (F32Vector dims))
  | twoLevel (coarse : List (F32Vector dims)) (jobs : List (SubtreeJob dims))

/-- The training of a generation. -/
def train : WorkArea dims → Except VectorCanisterError State
  | .flat work => trainingStep indexId s work
  | .twoLevel coarse jobs => do
    let s ← trainCoarseStep indexId s coarse
    jobs.foldlM (fun s job => trainFineStep indexId s job) s

/-- Buckets by a key, in the order of the keys. -/
def groupBy {α : Type} (key : α → Nat) (rows : List α) : List (Nat × List α) :=
  ((rows.map key).dedup.mergeSort (· ≤ ·)).map fun k => (k, rows.filter (key · = k))

/-- The rows a `building_step` copies, by the partition they are copied to, and the
next phase.  The set the rows are first compared with is read from the leaf keys,
whatever the levels. -/
def buildingStep (dims : Nat) (rows : List PendingRow) (exhausted : Bool) :
    Except VectorCanisterError (List (Nat × List PendingRow) × State) :=
  match s.rebuild with
  | .building target => do
    let some centroids := readCentroidsAt s.centroids indexId target.version target.nlist dims
      | throw .rebuildIncomplete
    let byCentroid := groupBy (fun row => assignPartition centroids row.stored) rows
    let grouped ←
      if target.levels = 2 then do
        let placed ← byCentroid.mapM fun group =>
          match readLeafChildrenAt s.centroids indexId target.version group.1 target.nlistFine
            dims with
          | none => .error .rebuildIncomplete
          | some children => .ok (group.2.map fun row =>
              (group.1 * target.nlistFine + assignPartition children row.stored, row))
        pure ((groupBy Prod.fst placed.flatten).map fun group =>
          (group.1, group.2.map Prod.snd))
      else pure byCentroid
    return (grouped, if exhausted then { s with rebuild := .readyToPublish target } else s)
  | _ => .error .unreachable

/-- The target becomes the active generation if its centroids are complete. -/
def adminPublishVectorRebuild (dims : Nat) : Except VectorCanisterError State :=
  match s.rebuild with
  | .readyToPublish target =>
    let leaves := if target.levels = 2 then target.nlist * target.nlistFine else target.nlist
    let complete := leaves < 2 ^ 32 ∧
      (readCentroidsAt s.centroids indexId target.version leaves dims).isSome ∧
      (target.levels ≠ 2 ∨
        (readCoarseCentroidsAt s.centroids indexId target.version target.nlist dims).isSome)
    if complete then
      .ok { s with
        definition := { s.definition with
          activeIndexVersion := target.version
          nlist := target.nlist
          levels := target.levels
          nlistFine := target.nlistFine }
        rebuild := .cleaning s.definition.activeIndexVersion s.definition.nlist
          s.definition.levels s.definition.nlistFine target.version }
    else .error .rebuildIncomplete
  | _ => .error .rebuildNotReadyToPublish

end Steps

/-! ## Writes -/

/-- The choice in a generation; what is missing is answered with the first partition
of the generation or of the subtree. -/
def chosen (store : Centroids) (indexId version nlist nlistFine : Nat) (twoLevel : Bool)
    (v : F32Vector dims) : Nat :=
  if twoLevel then
    match readCoarseCentroidsAt store indexId version nlist dims with
    | none => 0
    | some centroids =>
      let coarse := assignPartition centroids v.1
      match readLeafChildrenAt store indexId version coarse nlistFine dims with
      | none => coarse * nlistFine
      | some children => coarse * nlistFine + assignPartition children v.1
  else (readCentroidsAt store indexId version nlist dims).elim 0 (assignPartition · v.1)

/-- A write that is mirrored into the rebuild's generation. -/
def shadowPartition (indexId : Nat) (s : State) (target : Generation) : F32Vector dims → Nat :=
  chosen s.centroids indexId target.version target.nlist target.nlistFine (1 < target.nlistFine)

/-- A write into the active generation. -/
def activePartition (indexId : Nat) (s : State) (v : F32Vector dims) : Nat :=
  if s.definition.nlist ≤ 1 then 0
  else chosen s.centroids indexId s.definition.activeIndexVersion s.definition.nlist
    s.definition.nlistFine (s.definition.levels = 2) v

/-- The row a write of the vector leaves: `append_slot` stores its prepared form and the
page pads it. -/
def appendSlot (sqrt : ℚ → ℚ) (definition : VectorIndexDef) (subject : Nat)
    (sent : F32Vector dims) : Option PendingRow :=
  (prepareForMetric sqrt definition.metric sent).map fun stored =>
    ⟨subject, stored.1 ++ List.replicate definition.padding 0⟩

/-! ## What a training leaves -/

/-- The leaves of a subtree as the work areas determine them. -/
def jobLeaves (nlistFine : Nat) (coarse : F32Vector dims) (job : SubtreeJob dims) :
    List (F32Vector dims) :=
  if job.members = 0 then List.replicate nlistFine (decodeI8ToF32 (quantizeF32ToI8 coarse))
  else completeSubtreeLeafCentroids job.work job.mean nlistFine

/-- The leaves of a generation, by number. -/
def allLeaves (nlistFine : Nat) (coarse : List (F32Vector dims)) (jobs : List (SubtreeJob dims)) :
    List (F32Vector dims) :=
  (List.zipWith (jobLeaves nlistFine) coarse jobs).flatten

theorem allLeaves_concat {coarse : List (F32Vector dims)} {jobs : List (SubtreeJob dims)}
    (nlistFine : Nat) (job : SubtreeJob dims) (h : coarse[jobs.length]? = some c) :
    allLeaves nlistFine coarse (jobs ++ [job]) =
      allLeaves nlistFine coarse jobs ++ jobLeaves nlistFine c job := by
  simp only [allLeaves]
  induction jobs generalizing coarse with
  | nil =>
    obtain ⟨rest, rfl⟩ : ∃ rest, coarse = c :: rest := by
      rw [← List.head?_eq_some_iff, List.head?_eq_getElem?]
      exact h
    simp
  | cons first jobs ih =>
    cases coarse with
    | nil => simp at h
    | cons c' coarse => simp [ih (by simpa using h)]

/-- A subtree has its leaves, whether it has members or not. -/
theorem subtreeLeaves_inv {job : SubtreeJob dims}
    (h : subtreeLeaves (some (quantizeF32ToI8 coarse)) target job = .ok leaves) :
    leaves = jobLeaves target.nlistFine coarse job ∧ leaves.length = target.nlistFine := by
  rw [subtreeLeaves] at h
  rw [jobLeaves]
  split at h
  case isTrue hempty =>
    cases h
    exact ⟨(if_pos hempty).symm, List.length_replicate⟩
  case isFalse hmembers =>
    split at h
    case isTrue => cases h
    case isFalse hlength =>
      cases h
      refine ⟨(if_neg hmembers).symm, ?_⟩
      simp only [completeSubtreeLeafCentroids, List.length_append, List.length_replicate]
      omega

/-- The phase behind the training of `n` subtrees. -/
def fineRecord (target : Generation) (n : Nat) : VectorRebuildStateRecord :=
  if n < target.nlist then .trainFine target n else .building target

theorem advanceAfterSubtree_eq (target : Generation) (n : Nat) :
    advanceAfterSubtree target n = fineRecord target (n + 1) := by
  rw [advanceAfterSubtree, fineRecord, ← ite_not]
  simp only [not_le]

/-- The state behind the training of some subtrees. -/
def fineState (indexId : Nat) (s : State) (target : Generation) (coarse : List (F32Vector dims))
    (jobs : List (SubtreeJob dims)) : State :=
  { s with
    centroids := writeLevel (writeLevel s.centroids indexId target.version true 0 coarse) indexId
      target.version false 0 (allLeaves target.nlistFine coarse jobs)
    rebuild := fineRecord target jobs.length }

/-- One subtree more: its leaves stand behind those of the subtrees before it. -/
theorem trainFineStep_fineState {coarse : List (F32Vector dims)} {jobs : List (SubtreeJob dims)}
    (hcoarse : coarse.length = target.nlist)
    (hlength : (allLeaves target.nlistFine coarse jobs).length = jobs.length * target.nlistFine)
    (h : trainFineStep indexId (fineState indexId s target coarse jobs) job = .ok s') :
    s' = fineState indexId s target coarse (jobs ++ [job]) ∧ jobs.length < target.nlist ∧
      (allLeaves target.nlistFine coarse (jobs ++ [job])).length =
        (jobs.length + 1) * target.nlistFine := by
  rcases Nat.lt_or_ge jobs.length target.nlist with hlt | hge
  swap
  · simp [trainFineStep, fineState, fineRecord, Nat.not_lt.mpr hge] at h
  obtain ⟨c, hc⟩ : ∃ c, coarse[jobs.length]? = some c :=
    ⟨_, List.getElem?_eq_getElem (hcoarse ▸ hlt)⟩
  -- the leaf writes leave the coarse keys, so the coarse centroid is still there
  have hread : (fineState indexId s target coarse jobs).centroids
      ⟨indexId, target.version, true, jobs.length⟩ = some (encodeCentroidI8 c) := by
    have hself := writeLevel_self s.centroids indexId target.version true 0 coarse hc
    rw [zero_add] at hself
    exact (writeLevel_other_level _ _ _ (by simp) _).trans hself
  have hleaves := allLeaves_concat target.nlistFine job hc
  simp only [trainFineStep] at h
  rw [show (fineState indexId s target coarse jobs).rebuild = .trainFine target jobs.length from
    if_pos hlt] at h
  simp only [hread, if_neg (Nat.not_le.mpr hlt), Option.bind_eq_bind, Option.bind_some,
    splitCentroidI8_encode] at h
  obtain ⟨leaves, hsub, hs'⟩ := bind_inv h
  obtain ⟨rfl, hsize⟩ := subtreeLeaves_inv hsub
  refine ⟨?_, hlt, by rw [hleaves, List.length_append, hlength, hsize, Nat.succ_mul]⟩
  cases hs'
  simp only [fineState, hleaves, ← writeLevel_append, zero_add, hlength, advanceAfterSubtree_eq,
    List.length_append, List.length_singleton]

/-- The training of any number of subtrees. -/
theorem foldlM_trainFineStep {coarse : List (F32Vector dims)} {jobs : List (SubtreeJob dims)}
    (hcoarse : coarse.length = target.nlist)
    (h : jobs.foldlM (fun s job => trainFineStep indexId s job)
      (fineState indexId s target coarse []) = .ok s') :
    s' = fineState indexId s target coarse jobs ∧ jobs.length ≤ target.nlist ∧
      (allLeaves target.nlistFine coarse jobs).length = jobs.length * target.nlistFine := by
  induction jobs using List.reverseRecOn generalizing s' with
  | nil =>
    cases h
    exact ⟨rfl, Nat.zero_le _, by simp [allLeaves]⟩
  | append_singleton jobs job ih =>
    rw [List.foldlM_append] at h
    obtain ⟨mid, hmid, hlast⟩ := bind_inv h
    obtain ⟨rfl, -, hlength⟩ := ih hmid
    simp only [List.foldlM_cons, List.foldlM_nil, bind_pure] at hlast
    obtain ⟨rfl, hlt, hlength'⟩ := trainFineStep_fineState hcoarse hlength hlast
    exact ⟨rfl, by simpa using hlt, by simpa using hlength'⟩

end Gleaph.VectorPartition
