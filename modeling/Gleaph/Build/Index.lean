import Gleaph.Build.State

/-!
# Gleaph.Build.Index

What the index does for an online build.

A build is fed from two sides.  Pages of facts are pulled from the target shards
one after the other, each page under the sequence number and the cursor the
build stands at; changes arrive from every shard under consecutive numbers of
that shard.  A change marks its subject as touched before it takes the old value
out and puts the new one in, and a page leaves touched subjects alone.

* `registerIndexBuild`, `sealIndexBuild` — the two ends;
* `prepareIndexBuildPull`, `applyIndexBuildPull`, `seedIndexBuildPage` — pages;
* `applyIndexBuildDml` — changes.

The `_eq_ok` lemmas say what each has done when it succeeds.
-/

namespace Gleaph.Build

/-- The targets a sealed build has. -/
def IndexBuildSealStatus.exactTargets (status : IndexBuildSealStatus) : List IndexBuildSealTarget :=
  status.watermarks.map fun watermark => ⟨watermark.shardId, watermark.admittedThrough⟩

namespace IndexStore

variable (codec : BuildCodec) (store : IndexStore)

/-! ## Registration -/

/-- Whether the target of a registration is malformed; text builds do not belong
here. -/
def invalidTarget : IndexBuildTarget → Bool
  | .vertex labelId propertyId recordSource =>
    labelId = 0 || propertyId = 0 || recordSource.any fun source =>
      source.ancestorPropertyId = 0 || source.fieldTail.isEmpty ||
        (source.fieldTail.splitOn ".").any (·.isEmpty) || source.ancestorPropertyId = propertyId
  | .edge labelId propertyId _ => labelId = 0 || propertyId = 0
  | .text .. => true

/-- Adjacent entries in strictly increasing order. -/
def strictlyIncreasing : List Nat → Bool
  | a :: b :: rest => a < b && strictlyIncreasing (b :: rest)
  | _ => true

def registerIndexBuild (caller : Nat) (request : RegisterIndexBuildRequest) :
    Except IndexError (IndexBuildStatus × IndexStore) := do
  store.assertRouterCaller caller
  ensureRequestBytes (codec.registerLen request)
  if request.graphId = 0 || request.indexNameId = 0 || invalidTarget request.target then
    .error .invalidIndexBuildScope
  else if request.targetShardIds.isEmpty ||
      maxIndexBuildTargetShards < request.targetShardIds.length ||
      !strictlyIncreasing request.targetShardIds then
    .error .invalidIndexBuildTargetShards
  else if !store.ownershipInitialized || store.graphId ≠ request.graphId then
    .error .invalidIndexBuildScope
  else if !request.targetShardIds.all (fun shardId => (store.shardCanister shardId).isSome) then
    .error .invalidIndexBuildTargetShards
  else
    match store.states request.physicalIndexId with
    | some existing =>
      if existing.registration request.physicalIndexId = request then
        .ok (existing.status request.physicalIndexId, store)
      else .error .indexBuildAlreadyRegistered
    | none =>
      let state := IndexBuildState.new request
      .ok (state.status request.physicalIndexId, store.putState request.physicalIndexId state)

/-! ## Pages -/

/-- The page of a shard's facts behind a cursor. -/
def exportRequest (state : IndexBuildState) (physicalIndexId : Nat) (cursor : Option (List UInt8)) :
    CanonicalExportRequest where
  graphId := state.scope.graphId
  indexNameId := state.scope.indexNameId
  physicalIndexId
  catalogEpoch := state.scope.catalogEpoch
  target := canonicalTarget state.scope.target
  cursor
  limit := maxCanonicalExportPageItems

/-- The next page to fetch, without any progress. -/
def prepareIndexBuildPull (caller : Nat) (control : IndexBuildControlRequest) :
    Except IndexError (Option PreparedIndexBuildPull) := do
  store.assertRouterCaller caller
  ensureRequestBytes (codec.controlLen control)
  let state ← store.getState control.registration.physicalIndexId
  ensureControl state control
  if state.lifecycle ≠ .building then .error .indexBuildNotBuilding
  else if state.done then .ok none
  else
    match state.progress.expectedShardId with
    | none => .error .staleIndexBuildProgress
    | some shardId =>
      match store.shardCanister shardId with
      | none => .error .unknownShard
      | some graphCanister =>
        .ok (some
          { graphCanister
            exportRequest := exportRequest state control.registration.physicalIndexId state.cursor
            pageSequence := state.nextPageSequence
            shardId
            expectedCursor := state.cursor })

/-- The subjects of a page with their postings; none may come twice. -/
def prepareFacts (physicalIndexId : Nat) (target : IndexBuildTarget) (shardId : Nat) :
    List IndexBuildSubject → List CanonicalIndexableFact →
      Except IndexError (List (IndexBuildSubject × PreparedBuildPosting))
  | _, [] => .ok []
  | seen, fact :: facts => do
    let (subject, posting) ← prepareFactPosting physicalIndexId target shardId fact
    if subject ∈ seen then .error .duplicateIndexBuildSubject
    else do
      let rest ← prepareFacts physicalIndexId target shardId (subject :: seen) facts
      .ok ((subject, posting) :: rest)

/-- The progress after a page. -/
def advanced (state : IndexBuildState) (request : IndexBuildSeedPageRequest)
    (fingerprint : Fingerprint) (insertedFacts skippedTouchedFacts : Nat) : IndexBuildState :=
  { state with
    seededItems := state.seededItems + insertedFacts
    nextPageSequence := state.nextPageSequence + 1
    nextShardIndex := if request.done then state.nextShardIndex + 1 else state.nextShardIndex
    cursor := if request.done then none else request.nextCursor
    lastPage := some ⟨request.pageSequence, fingerprint, insertedFacts, skippedTouchedFacts⟩ }

/-- The postings of a page that are filled in: those of untouched subjects. -/
def untouchedPostings (physicalIndexId : Nat)
    (prepared : List (IndexBuildSubject × PreparedBuildPosting)) : List PreparedBuildPosting :=
  (prepared.filter fun entry => (physicalIndexId, entry.1) ∉ store.touched).map (·.2)

/-- Fill in a page whose turn it is. -/
def seedPrepared (request : IndexBuildSeedPageRequest) (fingerprint : Fingerprint)
    (state : IndexBuildState) (prepared : List (IndexBuildSubject × PreparedBuildPosting)) :
    Except IndexError (IndexBuildSeedPageResult × IndexStore) :=
  let inserted := store.untouchedPostings request.physicalIndexId prepared
  let insertedFacts := inserted.length
  let skipped := prepared.length - insertedFacts
  if 2 ^ 32 ≤ insertedFacts || 2 ^ 64 ≤ state.seededItems + insertedFacts ||
      2 ^ 64 ≤ state.nextPageSequence + 1 || (request.done && 2 ^ 32 ≤ state.nextShardIndex + 1) then
    .error .indexBuildProgressOverflow
  else
    let state := advanced state request fingerprint insertedFacts skipped
    .ok (⟨.applied, insertedFacts, skipped, state.progress⟩,
      { store with
        postings := store.postings ∪ inserted.toFinset }.putState
          request.physicalIndexId state)

def seedIndexBuildPage (request : IndexBuildSeedPageRequest) :
    Except IndexError (IndexBuildSeedPageResult × IndexStore) := do
  ensureRequestBytes (codec.pageLen request)
  if maxCanonicalExportPageItems < request.facts.length then .error .tooManyIndexBuildRows
  else do
    ensureCursor request.expectedCursor
    ensureCursor request.nextCursor
    if request.done ≠ request.nextCursor.isNone ||
        (!request.done && request.nextCursor = request.expectedCursor) then
      .error .invalidIndexBuildCursor
    else do
      let fingerprint := codec.pageFingerprint request
      let state ← store.getState request.physicalIndexId
      if state.scope.catalogEpoch ≠ request.catalogEpoch then .error .staleIndexBuildEpoch
      else if state.lifecycle ≠ .building then .error .indexBuildNotBuilding
      else
        match state.lastPage.filter (·.sequence = request.pageSequence) with
        | some last =>
          if fingerprint ≠ last.fingerprint then .error .indexBuildReplayConflict
          else
            .ok (⟨.replay, last.insertedFacts, last.skippedTouchedFacts, state.progress⟩, store)
        | none =>
          if state.done then .error .indexBuildAlreadyDone
          else if request.pageSequence ≠ state.nextPageSequence ||
              state.progress.expectedShardId ≠ some request.shardId ||
              request.expectedCursor ≠ state.cursor then
            .error .staleIndexBuildProgress
          else do
            let prepared ← prepareFacts request.physicalIndexId state.scope.target request.shardId []
              request.facts
            store.seedPrepared request fingerprint state prepared

/-- Apply a page that was fetched for a pull, after the pull was checked
again. -/
def applyIndexBuildPull (caller : Nat) (control : IndexBuildControlRequest)
    (prepared : PreparedIndexBuildPull) (page : CanonicalExportPage) :
    Except IndexError (IndexBuildStatus × IndexStore) := do
  let physicalIndexId := control.registration.physicalIndexId
  let state ← store.getState physicalIndexId
  store.assertRouterCaller caller
  ensureControl state control
  if state.lifecycle ≠ .building then .error .indexBuildNotBuilding
  else
    match store.shardCanister prepared.shardId with
    | none => .error .unknownShard
    | some expectedGraphCanister =>
      if expectedGraphCanister ≠ prepared.graphCanister ||
          exportRequest state physicalIndexId prepared.expectedCursor ≠ prepared.exportRequest ||
          !state.shards.any (fun shard => shard.shardId = prepared.shardId) then
        .error .staleIndexBuildProgress
      else do
        let (_, store) ← store.seedIndexBuildPage codec
          { physicalIndexId
            catalogEpoch := control.registration.catalogEpoch
            pageSequence := prepared.pageSequence
            shardId := prepared.shardId
            expectedCursor := prepared.expectedCursor
            facts := page.facts
            nextCursor := page.next
            done := page.done }
        let state ← store.getState physicalIndexId
        .ok (state.status physicalIndexId, store)

/-! ## Sealing -/

/-- Set each shard's target, in order; the ids have to agree. -/
def setSealTargets : List IndexBuildShardState → List IndexBuildSealTarget →
    Except IndexError (List IndexBuildShardState)
  | shard :: shards, target :: targets =>
    if shard.shardId ≠ target.shardId || target.admittedThrough < shard.acknowledgedThrough then
      .error .invalidIndexBuildSeal
    else do
      let rest ← setSealTargets shards targets
      .ok ({ shard with sealTarget := some target.admittedThrough } :: rest)
  | shards, _ => .ok shards

def sealIndexBuild (caller : Nat) (request : IndexBuildSealRequest) :
    Except IndexError (IndexBuildSealStatus × IndexStore) := do
  store.assertRouterCaller caller
  ensureRequestBytes (codec.sealLen request)
  let physicalIndexId := request.control.registration.physicalIndexId
  let state ← store.getState physicalIndexId
  ensureControl state request.control
  match state.sealStatus with
  | some status =>
    if status.sealCatalogEpoch = request.sealCatalogEpoch &&
        status.exactTargets = request.shardTargets then
      .ok (status, store)
    else .error .invalidIndexBuildSeal
  | none =>
    if state.lifecycle ≠ .building then .error .indexBuildAborted
    else if !state.done then .error .indexBuildNotReadyToSeal
    else if request.sealCatalogEpoch ≤ state.scope.catalogEpoch ||
        request.shardTargets.length ≠ state.shards.length ||
        !strictlyIncreasing (request.shardTargets.map (·.shardId)) then
      .error .invalidIndexBuildSeal
    else do
      let shards ← setSealTargets state.shards request.shardTargets
      let state := { state with shards, lifecycle := .sealing request.sealCatalogEpoch }
      .ok (⟨state.done, request.sealCatalogEpoch, state.watermarks⟩,
        store.putState physicalIndexId state)

/-! ## Changes -/

/-- Change the first entry of the shard. -/
def modifyShard (shardId : Nat) (change : IndexBuildShardState → IndexBuildShardState) :
    List IndexBuildShardState → List IndexBuildShardState
  | [] => []
  | shard :: shards =>
    if shard.shardId = shardId then change shard :: shards
    else shard :: modifyShard shardId change shards

/-- The last number that is still taken; after an abort there is none. -/
def dmlSealTarget (state : IndexBuildState) (shard : IndexBuildShardState) :
    Except IndexError (Option Nat) :=
  match state.lifecycle with
  | .building => .ok none
  | .sealing _ => .ok shard.sealTarget
  | .aborting | .aborted => .error .indexBuildAborted

/-- The shard's change is acknowledged, with its receipt. -/
def acknowledge (state : IndexBuildState) (request : IndexBuildDmlRequest)
    (fingerprint : Fingerprint) : IndexBuildState :=
  { state with
    shards := modifyShard request.subject.shardId (fun shard =>
      { shard with
        acknowledgedThrough := request.shardSequence
        lastFingerprint := some fingerprint }) state.shards }

/-- Apply a change whose turn it is: mark the subject, take out, put in. -/
def applyPrepared (request : IndexBuildDmlRequest) (fingerprint : Fingerprint)
    (state : IndexBuildState) (removals insertions : List PreparedBuildPosting) : IndexStore :=
  { store with
    touched := insert (request.physicalIndexId, request.subject) store.touched
    postings := (store.postings \ removals.toFinset) ∪ insertions.toFinset }.putState
      request.physicalIndexId (acknowledge state request fingerprint)

def applyIndexBuildDml (caller : Nat) (request : IndexBuildDmlRequest) :
    Except IndexError IndexStore := do
  ensureRequestBytes (codec.dmlLen request)
  if maxIndexBuildDmlValues < request.removals.length + request.insertions.length then
    .error .tooManyIndexBuildRows
  else do
    let shardId := request.subject.shardId
    store.assertShardCanister caller shardId
    if request.shardSequence = 0 then .error .invalidIndexBuildSequence
    else do
      let fingerprint := codec.dmlFingerprint request
      let state ← store.getState request.physicalIndexId
      if state.scope.catalogEpoch ≠ request.catalogEpoch then .error .staleIndexBuildEpoch
      else do
        ensureSubjectMatchesTarget state.scope.target request.subject
        match state.shards.find? (fun shard => shard.shardId = shardId) with
        | none => .error .invalidIndexBuildScope
        | some shard => do
          let sealTarget ← dmlSealTarget state shard
          if sealTarget.any (· < request.shardSequence) then .error .staleIndexBuildEpoch
          else if request.shardSequence = shard.acknowledgedThrough then
            if shard.lastFingerprint = some fingerprint then .ok store
            else .error .indexBuildReplayConflict
          else if request.shardSequence < shard.acknowledgedThrough then
            .error .indexBuildReplayTooOld
          else if 2 ^ 64 ≤ shard.acknowledgedThrough + 1 then .error .indexBuildProgressOverflow
          else if request.shardSequence ≠ shard.acknowledgedThrough + 1 then
            .error .indexBuildSequenceGap
          else do
            let prepare := prepareSubjectPosting request.physicalIndexId state.scope.target
              request.subject
            let removals ← request.removals.mapM prepare
            let insertions ← request.insertions.mapM prepare
            .ok (store.applyPrepared request fingerprint state removals insertions)

/-! ## What they have done when they succeed -/

theorem getState_eq_ok {physicalIndexId : Nat} {state : IndexBuildState} {store : IndexStore}
    (h : store.getState physicalIndexId = .ok state) : store.states physicalIndexId = some state := by
  unfold getState at h
  split at h
  · cases h
  · cases h
    assumption

section

variable {codec : BuildCodec} {store store' : IndexStore} {caller : Nat}

/-- A registration finds its own build, or starts it. -/
theorem registerIndexBuild_eq_ok {request : RegisterIndexBuildRequest} {status : IndexBuildStatus}
    (h : store.registerIndexBuild codec caller request = .ok (status, store')) :
    store' = store ∨
      (store.states request.physicalIndexId = none ∧
        strictlyIncreasing request.targetShardIds = true ∧
        store' = store.putState request.physicalIndexId (.new request)) := by
  obtain ⟨_, -, h⟩ := bind_inv h
  obtain ⟨_, -, h⟩ := bind_inv h
  split at h
  · cases h
  split at h
  · cases h
  next hshards =>
    split at h
    · cases h
    split at h
    · cases h
    split at h
    · split at h
      · exact .inl (Prod.mk.inj (Except.ok.inj h)).2.symm
      · cases h
    next hnone =>
      have hincreasing : strictlyIncreasing request.targetShardIds = true := by
        simp only [Bool.or_eq_true, not_or, Bool.not_eq_true'] at hshards
        simpa using hshards.2
      exact .inr ⟨hnone, hincreasing, (Prod.mk.inj (Except.ok.inj h)).2.symm⟩

/-- Exported facts that pass are prepared each for its own subject. -/
theorem prepareFacts_eq_ok {physicalIndexId propertyId shardId : Nat} {target : IndexBuildTarget}
    {seen : List IndexBuildSubject} {entries : List (Σ _ : IndexBuildSubject, List UInt8)}
    {prepared : List (IndexBuildSubject × PreparedBuildPosting)}
    (hown : ∀ entry ∈ entries, entry.1.shardId = shardId)
    (h : prepareFacts physicalIndexId target shardId seen
      (entries.map fun entry => canonicalFact propertyId entry.1 entry.2) = .ok prepared) :
    prepared = entries.map fun entry =>
      (entry.1, posting physicalIndexId target.propertyId entry.1 entry.2) := by
  induction entries generalizing seen prepared with
  | nil =>
    cases h
    rfl
  | cons entry entries ih =>
    obtain ⟨⟨subject, p⟩, hfact, h⟩ := bind_inv h
    rw [← hown entry (by simp)] at hfact
    obtain ⟨rfl, rfl⟩ := Prod.mk.inj (prepareFactPosting_canonicalFact hfact)
    simp only at h
    split at h
    · cases h
    obtain ⟨rest, hrest, h⟩ := bind_inv h
    cases h
    rw [ih (fun entry hentry => hown entry (by simp [hentry])) hrest]
    rfl

/-- A page is a replay, or it is the one whose turn it is and is filled in. -/
theorem seedIndexBuildPage_eq_ok {request : IndexBuildSeedPageRequest}
    {result : IndexBuildSeedPageResult}
    (h : store.seedIndexBuildPage codec request = .ok (result, store')) :
    store' = store ∨ ∃ state prepared fingerprint insertedFacts skipped,
      store.states request.physicalIndexId = some state ∧ state.lifecycle = .building ∧
      state.progress.expectedShardId = some request.shardId ∧
      request.expectedCursor = state.cursor ∧ request.done = request.nextCursor.isNone ∧
      prepareFacts request.physicalIndexId state.scope.target request.shardId [] request.facts =
        .ok prepared ∧
      store' = { store with
        postings := store.postings ∪
          (store.untouchedPostings request.physicalIndexId prepared).toFinset }.putState
            request.physicalIndexId (advanced state request fingerprint insertedFacts skipped) := by
  obtain ⟨_, -, h⟩ := bind_inv h
  split at h
  · cases h
  obtain ⟨_, -, h⟩ := bind_inv h
  obtain ⟨_, -, h⟩ := bind_inv h
  split at h
  · cases h
  next hcursor =>
    obtain ⟨state, hstate, h⟩ := bind_inv h
    split at h
    · cases h
    split at h
    · cases h
    next hbuilding =>
      split at h
      · split at h
        · cases h
        · exact .inl (Prod.mk.inj (Except.ok.inj h)).2.symm
      split at h
      · cases h
      split at h
      · cases h
      next hturn =>
        obtain ⟨prepared, hprepared, h⟩ := bind_inv h
        simp only [seedPrepared] at h
        split at h
        · cases h
        simp only [Bool.or_eq_true, decide_eq_true_eq, not_or, ne_eq, not_not] at hturn hcursor
        exact .inr ⟨state, prepared, _, _, _, getState_eq_ok hstate, not_not.mp hbuilding,
          hturn.1.2, hturn.2, hcursor.1, hprepared, (Prod.mk.inj (Except.ok.inj h)).2.symm⟩

/-- Each shard gets the target of its id. -/
theorem setSealTargets_eq_ok {shards shards' : List IndexBuildShardState}
    {targets : List IndexBuildSealTarget} (hlength : targets.length = shards.length)
    (h : setSealTargets shards targets = .ok shards') :
    List.Forall₂ (fun (shard shard' : IndexBuildShardState) => ∃ target ∈ targets,
      target.shardId = shard.shardId ∧
        shard' = { shard with sealTarget := some target.admittedThrough }) shards shards' := by
  induction shards generalizing targets shards' with
  | nil =>
    cases targets with
    | nil =>
      cases h
      exact .nil
    | cons target targets => cases hlength
  | cons shard shards ih =>
    cases targets with
    | nil => cases hlength
    | cons target targets =>
      unfold setSealTargets at h
      split at h
      · cases h
      next hagree =>
        obtain ⟨rest, hrest, h⟩ := bind_inv h
        cases h
        simp only [Bool.or_eq_true, decide_eq_true_eq, not_or, ne_eq, not_not] at hagree
        refine .cons ⟨target, by simp, hagree.1.symm, rfl⟩ ?_
        refine (ih (Nat.succ.inj hlength) hrest).imp ?_
        rintro old new ⟨target', htarget', hid, rfl⟩
        exact ⟨target', by simp [htarget'], hid, rfl⟩

/-- A seal finds the build sealed, or seals it. -/
theorem sealIndexBuild_eq_ok {request : IndexBuildSealRequest} {status : IndexBuildSealStatus}
    (h : store.sealIndexBuild codec caller request = .ok (status, store')) :
    store' = store ∨ ∃ state shards,
      store.states request.control.registration.physicalIndexId = some state ∧ state.done = true ∧
      request.shardTargets.length = state.shards.length ∧
      setSealTargets state.shards request.shardTargets = .ok shards ∧
      store' = store.putState request.control.registration.physicalIndexId
        { state with shards, lifecycle := .sealing request.sealCatalogEpoch } := by
  obtain ⟨_, -, h⟩ := bind_inv h
  obtain ⟨_, -, h⟩ := bind_inv h
  obtain ⟨state, hstate, h⟩ := bind_inv h
  obtain ⟨_, -, h⟩ := bind_inv h
  split at h
  · split at h
    · exact .inl (Prod.mk.inj (Except.ok.inj h)).2.symm
    · cases h
  split at h
  · cases h
  split at h
  · cases h
  next hdone =>
    split at h
    · cases h
    next hrequest =>
      obtain ⟨shards, hshards, h⟩ := bind_inv h
      simp only [Bool.or_eq_true, decide_eq_true_eq, not_or, ne_eq, not_not] at hrequest
      exact .inr ⟨state, shards, getState_eq_ok hstate, by simpa using hdone, hrequest.1.2, hshards,
        (Prod.mk.inj (Except.ok.inj h)).2.symm⟩

/-- A change is a replay, or it is the next one and is applied. -/
theorem applyIndexBuildDml_eq_ok {request : IndexBuildDmlRequest}
    (h : store.applyIndexBuildDml codec caller request = .ok store') :
    store' = store ∨ ∃ state shard fingerprint,
      store.states request.physicalIndexId = some state ∧
      state.shards.find? (fun shard => shard.shardId = request.subject.shardId) = some shard ∧
      request.shardSequence = shard.acknowledgedThrough + 1 ∧
      store' = store.applyPrepared request fingerprint state
        (request.removals.map
          (posting request.physicalIndexId state.scope.target.propertyId request.subject))
        (request.insertions.map
          (posting request.physicalIndexId state.scope.target.propertyId request.subject)) := by
  obtain ⟨_, -, h⟩ := bind_inv h
  split at h
  · cases h
  obtain ⟨_, -, h⟩ := bind_inv h
  split at h
  · cases h
  obtain ⟨state, hstate, h⟩ := bind_inv h
  split at h
  · cases h
  obtain ⟨_, -, h⟩ := bind_inv h
  split at h
  · cases h
  next shard hshard =>
    obtain ⟨sealTarget, -, h⟩ := bind_inv h
    split at h
    · cases h
    split at h
    · split at h
      · exact .inl (Except.ok.inj h).symm
      · cases h
    split at h
    · cases h
    split at h
    · cases h
    split at h
    · cases h
    next hnext =>
      obtain ⟨removals, hremovals, h⟩ := bind_inv h
      obtain ⟨insertions, hinsertions, h⟩ := bind_inv h
      rw [mapM_ok_eq hremovals fun _ _ => prepareSubjectPosting_eq_ok,
        mapM_ok_eq hinsertions fun _ _ => prepareSubjectPosting_eq_ok] at h
      exact .inr ⟨state, shard, _, getState_eq_ok hstate, hshard, not_not.mp hnext,
        (Except.ok.inj h).symm⟩

end

end IndexStore

end Gleaph.Build
