import Gleaph.Build.Index

/-!
# Gleaph.Build.Protocol

An online build as a whole: the index, the shards it is built from, and the
router's seal.

Each shard has a scope for the build.  While the scope is open every change of
an indexed subject is numbered, and pages are exported from the shard's facts as
they are; sealing the scope ends both and gives the number of the last change.
The index's seal takes these numbers as its targets.  Between the two sides
everything may be late, repeated or out of order: a change is delivered any
number of times, pulls are prepared at any time, a pull's page is exported any
number of times, and each exported page is applied any number of times.

Subjects and cursors stand in one linear order: a page covers the subjects
behind its cursor, up to the next one.
-/

namespace Gleaph.Build

/-! ## Shards -/

/-- The values of a shard's subjects. -/
abbrev Facts := AList fun _ : IndexBuildSubject => List UInt8

/-- Set a subject's value, or take it away. -/
def Facts.set (facts : Facts) (subject : IndexBuildSubject) : Option (List UInt8) → Facts
  | some value => facts.insert subject value
  | none => facts.erase subject

/-- A value that is set is read at its subject, and every other subject reads as
before. -/
theorem Facts.lookup_set (facts : Facts) (subject subject' : IndexBuildSubject)
    (value : Option (List UInt8)) :
    (facts.set subject value).lookup subject' =
      if subject' = subject then value else facts.lookup subject' := by
  cases value with
  | none =>
    by_cases h : subject' = subject
    · subst h
      simp [Facts.set]
    · simp [Facts.set, AList.lookup_erase_ne h, h]
  | some value =>
    by_cases h : subject' = subject
    · subst h
      simp [Facts.set]
    · simp [Facts.set, AList.lookup_insert_ne h, h]

structure BuildChange where
  subject : IndexBuildSubject
  old : Option (List UInt8)
  new : Option (List UInt8)
deriving DecidableEq

inductive ScopePhase where
  | unregistered
  | building
  | sealing
deriving DecidableEq

/-- A shard: what it had when its scope was registered, and the numbered changes
since then. -/
structure GraphShard where
  base : Facts
  changes : List BuildChange
  phase : ScopePhase

namespace GraphShard

/-- The facts after the first changes. -/
def factsAt (shard : GraphShard) (n : Nat) : Facts :=
  (shard.changes.take n).foldl (fun facts change => facts.set change.subject change.new) shard.base

def facts (shard : GraphShard) : Facts := shard.factsAt shard.changes.length

/-- A subject's value is set; the change is numbered while the scope is open,
and refused while it is sealed. -/
def change (shard : GraphShard) (subject : IndexBuildSubject) (value : Option (List UInt8)) :
    GraphShard :=
  match shard.phase with
  | .unregistered => { shard with base := shard.base.set subject value }
  | .building =>
    { shard with changes := shard.changes ++ [⟨subject, shard.facts.lookup subject, value⟩] }
  | .sealing => shard

end GraphShard

/-! ## The world -/

/-- What stays the same: the registration, the codec, and the order of subjects
and cursors. -/
structure BuildEnv (ρ : Type) where
  registration : RegisterIndexBuildRequest
  codec : BuildCodec
  router : Nat
  shardCanister : Nat → Option Nat
  position : IndexBuildSubject → ρ
  rank : List UInt8 → ρ

structure ExportedPage where
  pull : PreparedIndexBuildPull
  page : CanonicalExportPage

structure BuildWorld where
  index : IndexStore
  shards : Nat → GraphShard
  pulls : List PreparedIndexBuildPull
  pages : List ExportedPage

inductive BuildEvent where
  | register
  | registerScope (shardId : Nat)
  | change (subject : IndexBuildSubject) (value : Option (List UInt8))
  /-- The shard's outbox sends the change with this number. -/
  | deliver (shardId sequence : Nat)
  | preparePull
  /-- The page of a pull is exported, up to a cursor of the shard's choice. -/
  | exportPage (pull : Nat) (next : Option (List UInt8))
  | applyPull (page : Nat)
  | sealScope (shardId : Nat)
  | sealBuild (catalogEpoch : Nat)

namespace BuildEnv

variable {ρ : Type} [LinearOrder ρ] (env : BuildEnv ρ)

def control : IndexBuildControlRequest := ⟨env.registration⟩

/-- The subject stands behind the cursor. -/
def Behind (cursor : Option (List UInt8)) (subject : IndexBuildSubject) : Prop :=
  ∀ bytes ∈ cursor, env.rank bytes < env.position subject

/-- The subject stands no further than the next cursor. -/
def UpTo (next : Option (List UInt8)) (subject : IndexBuildSubject) : Prop :=
  ∀ bytes ∈ next, env.position subject ≤ env.rank bytes

instance (cursor : Option (List UInt8)) (subject : IndexBuildSubject) :
    Decidable (env.Behind cursor subject) := by
  unfold Behind
  infer_instance

instance (next : Option (List UInt8)) (subject : IndexBuildSubject) :
    Decidable (env.UpTo next subject) := by
  unfold UpTo
  infer_instance

/-- The next cursor is further on. -/
def Advances (cursor next : Option (List UInt8)) : Prop :=
  ∀ c ∈ cursor, ∀ n ∈ next, env.rank c < env.rank n

instance (cursor next : Option (List UInt8)) : Decidable (env.Advances cursor next) := by
  unfold Advances
  infer_instance

/-- The page of a pull from the shard's facts, up to the next cursor. -/
def exportedPage (facts : Facts) (cursor next : Option (List UInt8)) : CanonicalExportPage where
  facts := (facts.entries.filter fun entry =>
      env.Behind cursor entry.1 ∧ env.UpTo next entry.1).map fun entry =>
    canonicalFact env.registration.target.propertyId entry.1 entry.2
  next
  done := next.isNone

/-- The message for a numbered change. -/
def dmlRequest (sequence : Nat) (change : BuildChange) : IndexBuildDmlRequest where
  physicalIndexId := env.registration.physicalIndexId
  catalogEpoch := env.registration.catalogEpoch
  shardSequence := sequence
  subject := change.subject
  removals := change.old.toList
  insertions := change.new.toList

end BuildEnv

namespace BuildWorld

variable {ρ : Type} [LinearOrder ρ] (env : BuildEnv ρ) (w : BuildWorld)

/-- Take over the index if the call has succeeded. -/
def called {α : Type} (result : Except IndexError (α × IndexStore)) : BuildWorld :=
  match result with
  | .ok (_, index) => { w with index }
  | .error _ => w

def deliver (shardId sequence : Nat) : BuildWorld :=
  match (w.shards shardId).changes[sequence - 1]?, w.index.shardCanister shardId with
  | some change, some caller =>
    match w.index.applyIndexBuildDml env.codec caller (env.dmlRequest sequence change) with
    | .ok index => { w with index }
    | .error _ => w
  | _, _ => w

def exportPage (pull : PreparedIndexBuildPull) (next : Option (List UInt8)) : BuildWorld :=
  let shard := w.shards pull.shardId
  if shard.phase = .building ∧ env.Advances pull.expectedCursor next then
    let page := env.exportedPage shard.facts pull.expectedCursor next
    { w with pages := w.pages ++ [⟨pull, page⟩] }
  else w

/-- The targets of the seal, once all scopes are sealed. -/
def sealTargets : List IndexBuildSealTarget :=
  env.registration.targetShardIds.map fun shardId => ⟨shardId, (w.shards shardId).changes.length⟩

def step (w : BuildWorld) : BuildEvent → BuildWorld
  | .register => w.called (w.index.registerIndexBuild env.codec env.router env.registration)
  | .registerScope shardId =>
    let shard := w.shards shardId
    if shard.phase = .unregistered then
      { w with shards := Function.update w.shards shardId { shard with phase := .building } }
    else w
  | .change subject value =>
    { w with
      shards := Function.update w.shards subject.shardId
        ((w.shards subject.shardId).change subject value) }
  | .deliver shardId sequence => w.deliver env shardId sequence
  | .preparePull =>
    match w.index.prepareIndexBuildPull env.codec env.router env.control with
    | .ok (some pull) => { w with pulls := w.pulls ++ [pull] }
    | _ => w
  | .exportPage i next =>
    match w.pulls[i]? with
    | some pull => w.exportPage env pull next
    | none => w
  | .applyPull i =>
    match w.pages[i]? with
    | some exported =>
      w.called (w.index.applyIndexBuildPull env.codec env.router env.control exported.pull
        exported.page)
    | none => w
  | .sealScope shardId =>
    let shard := w.shards shardId
    if shard.phase = .building then
      { w with shards := Function.update w.shards shardId { shard with phase := .sealing } }
    else w
  | .sealBuild catalogEpoch =>
    if env.registration.targetShardIds.all (fun shardId => (w.shards shardId).phase = .sealing) then
      w.called (w.index.sealIndexBuild env.codec env.router
        ⟨env.control, catalogEpoch, w.sealTargets env⟩)
    else w

/-- Nothing is registered, and the shards are empty. -/
def initial : BuildWorld where
  index := .empty env.router env.registration.graphId env.shardCanister
  shards _ := ⟨∅, [], .unregistered⟩
  pulls := []
  pages := []

/-- The build is done and sealed, and every shard's changes are acknowledged up
to its target. -/
def Complete (state : IndexBuildState) : Prop :=
  state.done = true ∧ (∃ epoch, state.lifecycle = .sealing epoch) ∧
    ∀ shard ∈ state.shards, shard.sealTarget = some shard.acknowledgedThrough

/-- The postings of the index are the facts of its shards after their sealed
changes, once the build is complete. -/
def Converged : Prop :=
  ∀ state, w.index.states env.registration.physicalIndexId = some state → Complete state →
    ∀ p : PreparedBuildPosting, p.physicalIndexId = env.registration.physicalIndexId →
      (p ∈ w.index.postings ↔ ∃ shard ∈ state.shards, ∃ subject value,
        subject.shardId = shard.shardId ∧
        ((w.shards shard.shardId).factsAt shard.acknowledgedThrough).lookup subject = some value ∧
        p = posting env.registration.physicalIndexId env.registration.target.propertyId subject value)

end BuildWorld

end Gleaph.Build
