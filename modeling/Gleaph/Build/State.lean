import Gleaph.MessageSizing
import Gleaph.Derived.Store

/-!
# Gleaph.Build.State

The data of an online build of a physical index: targets and subjects, the
postings of a subject, and the durable state of the build.

A subject is a vertex or an edge occurrence of a shard.  It has one posting per
value (`posting`, `posting_inj`), which is what a change and a fact of a page are
both prepared to (`prepareSubjectPosting_eq_ok`,
`prepareFactPosting_canonicalFact`).  Candid lengths and the digests of the
replay receipts are parameters (`BuildCodec`).
-/

namespace Gleaph.Build

/-! ## Targets, subjects and facts -/

/-- Which edges of its label an edge index holds. -/
inductive EdgeIndexDirection where
  | outgoing
  | incoming
  | outgoingOrIncoming
  | undirected
  | outgoingOrUndirected
  | incomingOrUndirected
  | any
deriving DecidableEq

namespace EdgeIndexDirection

/-- Directed edges are held by every index but an undirected one. -/
def includesDirected : EdgeIndexDirection → Bool
  | .undirected => false
  | _ => true

def includesUndirected : EdgeIndexDirection → Bool
  | .undirected | .outgoingOrUndirected | .incomingOrUndirected | .any => true
  | _ => false

end EdgeIndexDirection

/-- A field of a record property: the property and the path behind it. -/
structure CanonicalRecordSource where
  ancestorPropertyId : Nat
  fieldTail : String
deriving DecidableEq

/-- What is indexed, as the build was registered with it. -/
inductive IndexBuildTarget where
  | vertex (labelId propertyId : Nat) (recordSource : Option CanonicalRecordSource)
  | edge (labelId propertyId : Nat) (direction : EdgeIndexDirection)
  | text (labelId propertyId analyzerId : Nat)
deriving DecidableEq

def IndexBuildTarget.propertyId : IndexBuildTarget → Nat
  | .vertex _ propertyId _ => propertyId
  | .edge _ propertyId _ => propertyId
  | .text _ propertyId _ => propertyId

/-- The same as a graph shard is asked for it; an analyzer is the index's own
affair. -/
inductive CanonicalExportTarget where
  | vertex (labelId propertyId : Nat) (recordSource : Option CanonicalRecordSource)
  | edge (labelId propertyId : Nat) (direction : EdgeIndexDirection)
  | text (labelId propertyId : Nat)
deriving DecidableEq

def canonicalTarget : IndexBuildTarget → CanonicalExportTarget
  | .vertex labelId propertyId recordSource => .vertex labelId propertyId recordSource
  | .edge labelId propertyId direction => .edge labelId propertyId direction
  | .text labelId propertyId _ => .text labelId propertyId

/-- The low 15 bits of an edge label on the wire. -/
def labelIndex (wire : Nat) : Nat := wire % 2 ^ 15

/-- The high bit of an edge label on the wire. -/
def isDirected (wire : Nat) : Bool := wire / 2 ^ 15 % 2 = 1

/-- An edge belongs to the target by its label and its direction. -/
def edgeWireMatchesTarget (target : IndexBuildTarget) (wire : Nat) : Bool :=
  match target with
  | .edge targetLabel _ direction =>
    labelIndex wire = targetLabel &&
      (if isDirected wire then direction.includesDirected else direction.includesUndirected)
  | _ => false

/-- A row of an exported page: a subject and the value it has. -/
inductive CanonicalIndexableFact where
  | vertex (vertexId propertyId : Nat) (encodedValue : List UInt8)
  | edge (ownerVertexId labelId slotIndex propertyId : Nat) (encodedValue : List UInt8)
  | vertexText (vertexId propertyId : Nat) (rawValue : String)
deriving DecidableEq

end Gleaph.Build

namespace Gleaph.IndexBuildSubject

def shardId : IndexBuildSubject → Nat
  | .vertex shardId _ => shardId
  | .edge shardId _ _ _ => shardId

end Gleaph.IndexBuildSubject

namespace Gleaph.Build

/-! ## Postings -/

structure VertexPostingKey where
  physicalIndexId : Nat
  propertyId : Nat
  value : List UInt8
  shardId : Nat
  vertexId : Nat
deriving DecidableEq

structure EdgePostingKey where
  physicalIndexId : Nat
  propertyId : Nat
  value : List UInt8
  labelId : Nat
  shardId : Nat
  ownerVertexId : Nat
  slotIndex : Nat
deriving DecidableEq

/-- A posting that passed its checks and can be stored. -/
inductive PreparedBuildPosting where
  | vertex (key : VertexPostingKey)
  | edge (key : EdgePostingKey)
deriving DecidableEq

def PreparedBuildPosting.physicalIndexId : PreparedBuildPosting → Nat
  | .vertex key => key.physicalIndexId
  | .edge key => key.physicalIndexId

/-- Only the errors of a build are kept. -/
inductive IndexError where
  | notAuthorized
  | unknownShard
  | wrongShardCanister
  | indexValueKeyTooLarge
  | indexBuildAlreadyRegistered
  | unknownIndexBuild
  | staleIndexBuildEpoch
  | invalidIndexBuildScope
  | invalidIndexBuildTargetShards
  | invalidIndexBuildTarget
  | indexBuildRequestTooLarge
  | tooManyIndexBuildRows
  | invalidIndexBuildCursor
  | indexBuildAlreadyDone
  | staleIndexBuildProgress
  | indexBuildReplayConflict
  | indexBuildReplayTooOld
  | invalidIndexBuildSequence
  | indexBuildSequenceGap
  | invalidIndexBuildControl
  | indexBuildNotBuilding
  | indexBuildNotReadyToSeal
  | invalidIndexBuildSeal
  | indexBuildAborted
  | duplicateIndexBuildSubject
  | indexBuildProgressOverflow
deriving DecidableEq

def maxIndexValueKeyBytes : Nat := 4096

def maxIndexBuildDmlValues : Nat := 1024

def maxIndexBuildTargetShards : Nat := 4096

def maxIndexBuildCursorBytes : Nat := 16 * 1024

def maxCanonicalExportPageItems : Nat := 10000

/-- A longer key would not fit the posting store. -/
def ensureIndexValueKey (value : List UInt8) : Except IndexError Unit :=
  if value.length ≤ maxIndexValueKeyBytes then .ok () else .error .indexValueKeyTooLarge

/-- A vertex for a vertex index; an edge of the target's label and direction for
an edge index. -/
def ensureSubjectMatchesTarget (target : IndexBuildTarget) (subject : IndexBuildSubject) :
    Except IndexError Unit :=
  match target, subject with
  | .vertex .., .vertex .. => .ok ()
  | .edge .., .edge _ _ subjectWire _ =>
    if edgeWireMatchesTarget target subjectWire then .ok () else .error .invalidIndexBuildTarget
  | _, _ => .error .invalidIndexBuildTarget

/-- All checks of a posting before it is stored or removed. -/
def prepareSubjectPosting (physicalIndexId : Nat) (target : IndexBuildTarget)
    (subject : IndexBuildSubject) (value : List UInt8) : Except IndexError PreparedBuildPosting := do
  ensureSubjectMatchesTarget target subject
  ensureIndexValueKey value
  let propertyId := target.propertyId
  match target, subject with
  | .vertex .., .vertex shardId vertexId =>
    .ok (.vertex ⟨physicalIndexId, propertyId, value, shardId, vertexId⟩)
  | .edge .., .edge shardId ownerVertexId labelId slotIndex =>
    .ok (.edge ⟨physicalIndexId, propertyId, value, labelId, shardId, ownerVertexId, slotIndex⟩)
  | _, _ => .error .invalidIndexBuildTarget

/-- The subject a fact of a shard is about, and its posting. -/
def prepareFactPosting (physicalIndexId : Nat) (target : IndexBuildTarget) (shardId : Nat) :
    CanonicalIndexableFact → Except IndexError (IndexBuildSubject × PreparedBuildPosting)
  | .vertex vertexId propertyId encodedValue =>
    match target with
    | .vertex .. =>
      if propertyId = target.propertyId then do
        let subject : IndexBuildSubject := .vertex shardId vertexId
        let posting ← prepareSubjectPosting physicalIndexId target subject encodedValue
        .ok (subject, posting)
      else .error .invalidIndexBuildTarget
    | _ => .error .invalidIndexBuildTarget
  | .edge ownerVertexId labelId slotIndex propertyId encodedValue =>
    match target with
    | .edge .. =>
      if edgeWireMatchesTarget target labelId && propertyId = target.propertyId then do
        let subject : IndexBuildSubject := .edge shardId ownerVertexId labelId slotIndex
        let posting ← prepareSubjectPosting physicalIndexId target subject encodedValue
        .ok (subject, posting)
      else .error .invalidIndexBuildTarget
    | _ => .error .invalidIndexBuildTarget
  | .vertexText .. => .error .invalidIndexBuildTarget

/-! ### The posting of a subject -/

/-- The posting of a subject's value, whatever the target. -/
def posting (physicalIndexId propertyId : Nat) (subject : IndexBuildSubject) (value : List UInt8) :
    PreparedBuildPosting :=
  match subject with
  | .vertex shardId vertexId => .vertex ⟨physicalIndexId, propertyId, value, shardId, vertexId⟩
  | .edge shardId ownerVertexId labelId slotIndex =>
    .edge ⟨physicalIndexId, propertyId, value, labelId, shardId, ownerVertexId, slotIndex⟩

/-- A posting is filed under the index it was prepared for. -/
@[simp] theorem posting_physicalIndexId (physicalIndexId propertyId : Nat)
    (subject : IndexBuildSubject) (value : List UInt8) :
    (posting physicalIndexId propertyId subject value).physicalIndexId = physicalIndexId := by
  cases subject <;> rfl

/-- A posting tells its subject and its value. -/
theorem posting_inj :
    posting physicalIndexId propertyId subject value =
      posting physicalIndexId propertyId subject' value' ↔ subject = subject' ∧ value = value' := by
  cases subject <;> cases subject' <;> simp [posting] <;> tauto

theorem prepareSubjectPosting_eq_ok
    (h : prepareSubjectPosting physicalIndexId target subject value = .ok prepared) :
    prepared = posting physicalIndexId target.propertyId subject value := by
  obtain ⟨_, -, h⟩ := bind_inv h
  obtain ⟨_, -, h⟩ := bind_inv h
  cases target <;> cases subject <;> cases h <;> rfl

/-- The fact a shard exports for the value of one of its subjects. -/
def canonicalFact (propertyId : Nat) (subject : IndexBuildSubject) (value : List UInt8) :
    CanonicalIndexableFact :=
  match subject with
  | .vertex _ vertexId => .vertex vertexId propertyId value
  | .edge _ ownerVertexId labelId slotIndex =>
    .edge ownerVertexId labelId slotIndex propertyId value

/-- A fact that passes is prepared for the subject it was exported for. -/
theorem prepareFactPosting_canonicalFact
    (h : prepareFactPosting physicalIndexId target subject.shardId
      (canonicalFact propertyId subject value) = .ok prepared) :
    prepared = (subject, posting physicalIndexId target.propertyId subject value) := by
  cases subject with
  | vertex shardId vertexId | edge shardId ownerVertexId labelId slotIndex =>
    simp only [prepareFactPosting, canonicalFact] at h
    split at h
    · split at h
      · obtain ⟨p, hp, h⟩ := bind_inv h
        rw [← Except.ok.inj h, prepareSubjectPosting_eq_ok hp]
        rfl
      · cases h
    · cases h

/-! ## The state of a build -/

structure RegisterIndexBuildRequest where
  physicalIndexId : Nat
  graphId : Nat
  indexNameId : Nat
  catalogEpoch : Nat
  topologyEpoch : Nat
  target : IndexBuildTarget
  targetShardIds : List Nat
deriving DecidableEq

/-- What a build is of.  It never changes. -/
structure IndexBuildScopeRecord where
  graphId : Nat
  indexNameId : Nat
  catalogEpoch : Nat
  topologyEpoch : Nat
  target : IndexBuildTarget
deriving DecidableEq

/-- A digest of a message, in the receipt of its last application. -/
abbrev Fingerprint := List UInt8

/-- The receipt of the last page, for its replay. -/
structure IndexBuildLastPage where
  sequence : Nat
  fingerprint : Fingerprint
  insertedFacts : Nat
  skippedTouchedFacts : Nat
deriving DecidableEq

/-- How far a shard's changes are in, and how far they must come before the
seal. -/
structure IndexBuildShardState where
  shardId : Nat
  acknowledgedThrough : Nat
  lastFingerprint : Option Fingerprint
  sealTarget : Option Nat
deriving DecidableEq

inductive IndexBuildLifecycle where
  | building
  | sealing (sealCatalogEpoch : Nat)
  | aborting
  | aborted
deriving DecidableEq

/-- All that is stored about a build: which page of which shard comes next, how
far each shard is, and the phase. -/
structure IndexBuildState where
  scope : IndexBuildScopeRecord
  nextPageSequence : Nat
  nextShardIndex : Nat
  cursor : Option (List UInt8)
  seededItems : Nat
  lastPage : Option IndexBuildLastPage
  shards : List IndexBuildShardState
  lifecycle : IndexBuildLifecycle
deriving DecidableEq

/-- What is told of the pages. -/
structure IndexBuildProgress where
  nextPageSequence : Nat
  nextShardIndex : Nat
  expectedShardId : Option Nat
  cursor : Option (List UInt8)
  seededItems : Nat
  done : Bool
deriving DecidableEq

/-- What is told of a shard: admitted is what it has to deliver, drained what it
has. -/
structure IndexBuildShardWatermark where
  shardId : Nat
  admittedThrough : Nat
  drainedThrough : Nat
deriving DecidableEq

/-- What is told of a seal; the caller decides from it when the build is
complete. -/
structure IndexBuildSealStatus where
  baseComplete : Bool
  sealCatalogEpoch : Nat
  watermarks : List IndexBuildShardWatermark
deriving DecidableEq

structure IndexBuildStatus where
  registration : RegisterIndexBuildRequest
  progress : IndexBuildProgress
  phase : IndexBuildLifecycle
  watermarks : List IndexBuildShardWatermark
deriving DecidableEq

def IndexBuildShardState.watermark (shard : IndexBuildShardState) : IndexBuildShardWatermark :=
  ⟨shard.shardId, shard.sealTarget.getD shard.acknowledgedThrough, shard.acknowledgedThrough⟩

namespace IndexBuildState

/-- A build starts before the first page of its first shard. -/
def new (request : RegisterIndexBuildRequest) : IndexBuildState where
  scope := ⟨request.graphId, request.indexNameId, request.catalogEpoch, request.topologyEpoch,
    request.target⟩
  nextPageSequence := 0
  nextShardIndex := 0
  cursor := none
  seededItems := 0
  lastPage := none
  shards := request.targetShardIds.map fun shardId => ⟨shardId, 0, none, none⟩
  lifecycle := .building

variable (state : IndexBuildState)

def registration (physicalIndexId : Nat) : RegisterIndexBuildRequest where
  physicalIndexId
  graphId := state.scope.graphId
  indexNameId := state.scope.indexNameId
  catalogEpoch := state.scope.catalogEpoch
  topologyEpoch := state.scope.topologyEpoch
  target := state.scope.target
  targetShardIds := state.shards.map (·.shardId)

/-- All shards have delivered their last page. -/
def done : Bool := state.nextShardIndex = state.shards.length

def progress : IndexBuildProgress where
  nextPageSequence := state.nextPageSequence
  nextShardIndex := state.nextShardIndex
  expectedShardId :=
    if state.done then none else state.shards[state.nextShardIndex]?.map (·.shardId)
  cursor := state.cursor
  seededItems := state.seededItems
  done := state.done

def watermarks : List IndexBuildShardWatermark :=
  state.shards.map (·.watermark)

def status (physicalIndexId : Nat) : IndexBuildStatus :=
  ⟨state.registration physicalIndexId, state.progress, state.lifecycle, state.watermarks⟩

def sealStatus : Option IndexBuildSealStatus :=
  match state.lifecycle with
  | .sealing sealCatalogEpoch => some ⟨state.done, sealCatalogEpoch, state.watermarks⟩
  | _ => none

end IndexBuildState

/-! ## The store -/

/-- The tables the build works on, with the ownership and routing it checks. -/
structure IndexStore where
  router : Nat
  ownershipInitialized : Bool
  graphId : Nat
  shardCanister : Nat → Option Nat
  states : Nat → Option IndexBuildState
  touched : Finset (Nat × IndexBuildSubject)
  postings : Finset PreparedBuildPosting

/-- A store without a build. -/
def IndexStore.empty (router graphId : Nat) (shardCanister : Nat → Option Nat) : IndexStore :=
  ⟨router, true, graphId, shardCanister, fun _ => none, ∅, ∅⟩

/-- Commands repeat the registration, so that a stale caller is refused. -/
structure IndexBuildControlRequest where
  registration : RegisterIndexBuildRequest
deriving DecidableEq

/-- The last change a shard had admitted when the seal was asked for. -/
structure IndexBuildSealTarget where
  shardId : Nat
  admittedThrough : Nat
deriving DecidableEq

structure IndexBuildSealRequest where
  control : IndexBuildControlRequest
  sealCatalogEpoch : Nat
  shardTargets : List IndexBuildSealTarget
deriving DecidableEq

/-- A page of facts, with the cursor it was asked for and the one behind it. -/
structure IndexBuildSeedPageRequest where
  physicalIndexId : Nat
  catalogEpoch : Nat
  pageSequence : Nat
  shardId : Nat
  expectedCursor : Option (List UInt8)
  facts : List CanonicalIndexableFact
  nextCursor : Option (List UInt8)
  done : Bool
deriving DecidableEq

structure CanonicalExportRequest where
  graphId : Nat
  indexNameId : Nat
  physicalIndexId : Nat
  catalogEpoch : Nat
  target : CanonicalExportTarget
  cursor : Option (List UInt8)
  limit : Nat
deriving DecidableEq

structure CanonicalExportPage where
  facts : List CanonicalIndexableFact
  next : Option (List UInt8)
  done : Bool
deriving DecidableEq

/-- The page to ask for next, and of whom. -/
structure PreparedIndexBuildPull where
  graphCanister : Nat
  exportRequest : CanonicalExportRequest
  pageSequence : Nat
  shardId : Nat
  expectedCursor : Option (List UInt8)
deriving DecidableEq

/-- Whether the page was new. -/
inductive IndexBuildSeedDisposition where
  | applied
  | replay
deriving DecidableEq

structure IndexBuildSeedPageResult where
  disposition : IndexBuildSeedDisposition
  insertedFacts : Nat
  skippedTouchedFacts : Nat
  progress : IndexBuildProgress
deriving DecidableEq

/-- Encoded lengths and digests of the messages. -/
structure BuildCodec where
  registerLen : RegisterIndexBuildRequest → Nat
  controlLen : IndexBuildControlRequest → Nat
  sealLen : IndexBuildSealRequest → Nat
  dmlLen : IndexBuildDmlRequest → Nat
  dmlFingerprint : IndexBuildDmlRequest → Fingerprint
  pageLen : IndexBuildSeedPageRequest → Nat
  pageFingerprint : IndexBuildSeedPageRequest → Fingerprint

/-- A request must fit a message between canisters. -/
def ensureRequestBytes (len : Nat) : Except IndexError Unit :=
  if SizingPolicy.maxSafeInterCanisterRequestPayloadBytes < len then
    .error .indexBuildRequestTooLarge
  else .ok ()

/-- Cursors are opaque to the index, only their length is checked. -/
def ensureCursor (cursor : Option (List UInt8)) : Except IndexError Unit :=
  if cursor.any (maxIndexBuildCursorBytes < ·.length) then .error .invalidIndexBuildCursor
  else .ok ()

/-- The command is about this very registration. -/
def ensureControl (state : IndexBuildState) (control : IndexBuildControlRequest) :
    Except IndexError Unit :=
  if state.registration control.registration.physicalIndexId ≠ control.registration then
    .error .invalidIndexBuildControl
  else .ok ()

namespace IndexStore

variable (store : IndexStore)

/-- The anonymous caller, number zero, is never the router. -/
def assertRouterCaller (caller : Nat) : Except IndexError Unit :=
  if caller = 0 then .error .notAuthorized
  else if caller ≠ store.router then .error .notAuthorized
  else .ok ()

/-- Only the canister registered for a shard speaks for it. -/
def assertShardCanister (caller shardId : Nat) : Except IndexError Unit :=
  match store.shardCanister shardId with
  | none => .error .unknownShard
  | some registered => if caller ≠ registered then .error .wrongShardCanister else .ok ()

def getState (physicalIndexId : Nat) : Except IndexError IndexBuildState :=
  match store.states physicalIndexId with
  | none => .error .unknownIndexBuild
  | some state => .ok state

def putState (physicalIndexId : Nat) (state : IndexBuildState) : IndexStore :=
  { store with states := Function.update store.states physicalIndexId (some state) }

end IndexStore

end Gleaph.Build
