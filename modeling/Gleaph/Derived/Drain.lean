import Gleaph.MessageSizing
import Gleaph.Derived.Store

/-!
# Gleaph.Derived.Drain

The drain of a durable queue, cut at its calls.

`drainQueue` reads all rows that await delivery and goes through them in runs
of one kind: build envelopes one by one, runs of vector operations, runs of
property and label postings, the last two in batches that fit one message.
Each call to a target canister suspends the pass, and anything may happen to
the queue before the reply.  So a pass is a state machine: `Await` is what it
waits for, with the rows of the current run it has not acknowledged, `rest`
the rows behind the run; `advance` goes to the next call, and `resume` takes a
reply, removes the acknowledged rows by their numbers and goes on.

`resume_cases` says all that a reply can do: the pass ends and nothing
changes, or the rows of the acknowledged part of the run are removed and the
pass goes on with what is behind.
-/

namespace Gleaph

open List hiding count

open DurableOp DerivedIndexStore

/-! ## Batches -/

/-- A posting as the index canister takes it. -/
inductive IndexPostingMutation where
  | vertexProperty (physicalIndexId : Nat) (remove : Bool) (propertyId : Nat) (value : List UInt8)
      (vertexId : Nat)
  | edgeProperty (physicalIndexId : Nat) (remove : Bool) (propertyId : Nat) (value : List UInt8)
      (labelId ownerVertexId slotIndex : Nat)
  | label (remove : Bool) (labelId vertexId : Nat)
deriving DecidableEq

inductive PlanQueryError where
  | unsupportedOp (what : String)
  | indexFlushDeferred (op detail : String)
  /-- What a failed call answers. -/
  | call (detail : String)
deriving DecidableEq

def requiresActivePhase : PlanQueryError :=
  .unsupportedOp "index repair dispatch requires Active maintenance phase"

/-- A vector operation never comes here: the runs keep the kinds apart. -/
def toIndexMutation : RepairPostingOp → Except PlanQueryError IndexPostingMutation
  | .vertexProperty physicalIndexId _ phase remove propertyId payloadBytes vertexId =>
    if phase.isActive then
      .ok (.vertexProperty physicalIndexId remove propertyId payloadBytes vertexId)
    else .error requiresActivePhase
  | .edgeProperty physicalIndexId _ phase remove propertyId payloadBytes labelId ownerVertexId
      slotIndex =>
    if phase.isActive then
      .ok (.edgeProperty physicalIndexId remove propertyId payloadBytes labelId ownerVertexId
        slotIndex)
    else .error requiresActivePhase
  | .label remove labelId vertexId => .ok (.label remove labelId vertexId)
  | .vectorEmbedding _ => .error (.unsupportedOp "vector entries are not batched")

/-- The targets of a pass: whether the index takes batches, whether there is a
vector canister, and the encoded length of a message to either. -/
structure DrainClients where
  supportsPostingBatch : Bool
  vector : Bool
  encodedPostings : List IndexPostingMutation → Except String Nat
  encodedVectors : List VectorEmbeddingSyncOp → Except String Nat

/-- An index that takes batches, a hundred bytes a posting, and no vector
canister. -/
def smallPostings : DrainClients where
  supportsPostingBatch := true
  vector := false
  encodedPostings operations := .ok (100 * operations.length)
  encodedVectors _ := .ok 0

/-- The length of the message with the first `count` postings. -/
def measurePostings (clients : DrainClients) (entries : List (Nat × RepairPostingOp))
    (count : Nat) : Except String Nat :=
  match (entries.take count).mapM fun entry => toIndexMutation entry.2 with
  | .ok candidate => clients.encodedPostings candidate
  | .error _ => .error "index repair dispatch requires Active maintenance phase"

def propertyBatchPrefix (clients : DrainClients) (entries : List (Nat × RepairPostingOp)) :
    Except PlanQueryError (List IndexPostingMutation) :=
  match adaptiveFittingPrefix entries.length none .interCanister (measurePostings clients entries) with
  | .error (.measure _) => .error (.unsupportedOp "failed to encode index posting batch")
  | .error (.noEntryFits _ _) => .error (.unsupportedOp
      "single index posting exceeds the safe inter-canister request payload limit")
  | .ok none => .error (.unsupportedOp "empty index posting batch")
  | .ok (some fitted) => (entries.take fitted.entryCount).mapM fun entry => toIndexMutation entry.2

def vectorBatchPrefix (clients : DrainClients) (entries : List VectorEmbeddingSyncOp) :
    Except PlanQueryError Nat :=
  match adaptiveFittingPrefix entries.length none .interCanister
      (fun count => clients.encodedVectors (entries.take count)) with
  | .error (.measure _) => .error (.unsupportedOp "failed to encode vector sync batch")
  | .error (.noEntryFits _ _) => .error (.unsupportedOp
      "single vector operation exceeds the safe inter-canister request payload limit")
  | .ok none => .error (.unsupportedOp "empty vector sync batch")
  | .ok (some fitted) => .ok fitted.entryCount

/-! ## Suspended passes -/

/-- The call a pass waits for, with the rows of the current run from the first
one not acknowledged. -/
inductive Await where
  | buildDml (sequence : Nat) (request : IndexBuildDmlRequest)
  | vectorBatch (group : List (Nat × VectorEmbeddingSyncOp)) (count : Nat)
      (submitted : Option (List (Nat × DurableRow)))
  | postingBatch (group : List (Nat × RepairPostingOp)) (operations : List IndexPostingMutation)
  | posting (sequence : Nat) (op : RepairPostingOp) (group : List (Nat × RepairPostingOp))
deriving DecidableEq

/-- A suspended pass over a queue. -/
structure SuspendedPass where
  queue : DurableQueue
  clients : DrainClients
  await : Await
  rest : List (Nat × DurableOp)

/-- What a segment of a pass ends with: its result, or the next call and the
rows behind the run. -/
inductive DrainStatus where
  | done (result : Except PlanQueryError Unit)
  | suspended (await : Await) (rest : List (Nat × DurableOp))

structure IndexPostingBatchProgress where
  applied : Nat
  nextIndex : Option Nat
deriving DecidableEq

/-- The replies of the targets.  A build envelope is also acknowledged to the
local build scope, which is not part of the store here: `ack` is its answer. -/
inductive Reply where
  | buildDml (call ack : Except String Unit)
  | vector (outcome : Except String VectorSyncBatchOutcome)
  | progress (progress : Except String IndexPostingBatchProgress)
  | posted (result : Except String Unit)

/-- The vector operations at the front, and what is behind them. -/
def vectorRun : List (Nat × DurableOp) → List (Nat × VectorEmbeddingSyncOp) × List (Nat × DurableOp)
  | (sequence, .ordinary (.vectorEmbedding op)) :: entries =>
    ((sequence, op) :: (vectorRun entries).1, (vectorRun entries).2)
  | entries => ([], entries)

/-- The property and label postings at the front, and what is behind them. -/
def postingRun : List (Nat × DurableOp) → List (Nat × RepairPostingOp) × List (Nat × DurableOp)
  | (sequence, .ordinary op) :: entries =>
    if (ordinary op).isPosting then
      ((sequence, op) :: (postingRun entries).1, (postingRun entries).2)
    else ([], (sequence, .ordinary op) :: entries)
  | entries => ([], entries)

/-- Send the next batch of a vector run.  In the outbox the batch has to be at
the front of the queue. -/
def sendVectors (clients : DrainClients) (q : DurableQueue) (store : DerivedIndexStore)
    (group : List (Nat × VectorEmbeddingSyncOp)) (rest : List (Nat × DurableOp)) : DrainStatus :=
  match vectorBatchPrefix clients (group.map (·.2)) with
  | .error e => .done (.error e)
  | .ok count =>
    match q with
    | .derivedIndexOutbox =>
      let pending := store.peek .derivedIndexOutbox count
      if pending.map (·.1) = (group.take count).map (·.1) then
        .suspended (.vectorBatch group count (some pending)) rest
      else .done (.error (.unsupportedOp "invalid vector outbox identity"))
    | .repairJournal => .suspended (.vectorBatch group count none) rest

/-- Send the next postings of a run: a batch, or one posting to a client that
takes no batches. -/
def sendPostings (clients : DrainClients) (group : List (Nat × RepairPostingOp))
    (rest : List (Nat × DurableOp)) : DrainStatus :=
  if clients.supportsPostingBatch then
    match propertyBatchPrefix clients group with
    | .error e => .done (.error e)
    | .ok operations => .suspended (.postingBatch group operations) rest
  else
    match group with
    | [] => .done (.ok ())
    | (sequence, op) :: group =>
      match toIndexMutation op with
      | .error e => .done (.error e)
      | .ok _ => .suspended (.posting sequence op group) rest

/-- Go on to the next call.  Without a vector client the vector rows are
passed over and stay in the queue. -/
def advance (clients : DrainClients) (q : DurableQueue) (store : DerivedIndexStore) :
    List (Nat × DurableOp) → DrainStatus
  | [] => .done (.ok ())
  | (sequence, .buildDml request) :: rest => .suspended (.buildDml sequence request) rest
  | (sequence, .ordinary (.vectorEmbedding op)) :: rest =>
    if clients.vector then
      sendVectors clients q store ((sequence, op) :: (vectorRun rest).1) (vectorRun rest).2
    else advance clients q store rest
  | (sequence, .ordinary op) :: rest =>
    sendPostings clients ((sequence, op) :: (postingRun rest).1) (postingRun rest).2

section

variable (clients : DrainClients) (q : DurableQueue) (store : DerivedIndexStore)

/-- Start a pass: the snapshot is everything that awaits delivery. -/
def drainQueue : DrainStatus :=
  if store.federationConfigured then advance clients q store (store.peekQueue q)
  else .done (.ok ())

/-- Take the reply of the vector canister. -/
def resumeVectors (group : List (Nat × VectorEmbeddingSyncOp)) (count : Nat)
    (submitted : Option (List (Nat × DurableRow))) (rest : List (Nat × DurableOp))
    (outcome : VectorSyncBatchOutcome) : Except String (DerivedIndexStore × DrainStatus) :=
  match outcome.validate count with
  | .error _ => .ok (store, .done (.error (.unsupportedOp "invalid vector repair outcome")))
  | .ok _ =>
    if outcome = .progress 0 then
      .ok (store, .done (.error (.unsupportedOp "vector repair outcome made no progress")))
    else
      let next (store : DerivedIndexStore) : DrainStatus :=
        if outcome.isTerminal || (group.drop outcome.applied).isEmpty then
          advance clients q store rest
        else sendVectors clients q store (group.drop outcome.applied) rest
      match q with
      | .derivedIndexOutbox =>
        match store.applyVectorOutcome (submitted.getD []) outcome with
        | .error _ =>
          .ok (store, .done (.error (.unsupportedOp "invalid vector outbox identity")))
        | .ok store => .ok (store, next store)
      | .repairJournal =>
        if outcome.isTerminal then
          .ok (store, .done (.error (.unsupportedOp
            "repair journal cannot quarantine a terminal vector item")))
        else do
          let store ← store.removeAll .repairJournal
            ((group.take outcome.applied).map (·.1))
          .ok (store, next store)

/-- Take the progress of a posting batch.  A batch that the index reports
finished ends the run, also when the run has more rows than the batch. -/
def resumePostings (group : List (Nat × RepairPostingOp)) (operations : List IndexPostingMutation)
    (rest : List (Nat × DurableOp)) (progress : IndexPostingBatchProgress) :
    Except String (DerivedIndexStore × DrainStatus) :=
  if progress.applied = 0 ∨ operations.length < progress.applied then
    .ok (store, .done (.error (.unsupportedOp "invalid index repair progress")))
  else do
    let store ← store.removeAll q ((group.take progress.applied).map (·.1))
    if progress.nextIndex.isNone || (group.drop progress.applied).isEmpty then
      .ok (store, advance clients q store rest)
    else .ok (store, sendPostings clients (group.drop progress.applied) rest)

/-- Take a reply.  The error case is a trap: nothing of the segment is kept and
the pass is gone; so is a pass that gets the reply of another call, which does
not happen. -/
def resume (await : Await) (rest : List (Nat × DurableOp)) (reply : Reply) :
    Except String (DerivedIndexStore × DrainStatus) :=
  match await, reply with
  | .buildDml _ _, .buildDml (.error e) _ => .ok (store, .done (.error (.call e)))
  | .buildDml _ _, .buildDml (.ok _) (.error e) =>
    .ok (store, .done (.error (.indexFlushDeferred "index_build_drain_ack" e)))
  | .buildDml sequence _, .buildDml (.ok _) (.ok _) => do
    let store ← store.removeAll q [sequence]
    .ok (store, advance clients q store rest)
  | .vectorBatch _ _ _, .vector (.error e) => .ok (store, .done (.error (.call e)))
  | .vectorBatch group count submitted, .vector (.ok outcome) =>
    resumeVectors clients q store group count submitted rest outcome
  | .postingBatch _ _, .progress (.error e) => .ok (store, .done (.error (.call e)))
  | .postingBatch group operations, .progress (.ok progress) =>
    resumePostings clients q store group operations rest progress
  | .posting _ _ _, .posted (.error e) => .ok (store, .done (.error (.call e)))
  | .posting sequence _ group, .posted (.ok _) => do
    let store ← store.removeAll q [sequence]
    if group.isEmpty then .ok (store, advance clients q store rest)
    else .ok (store, sendPostings clients group rest)
  | _, _ => .error "the reply of another call"

end

/-! ## What a pass has not acknowledged -/

def Await.unacked : Await → List (Nat × DurableOp)
  | .buildDml sequence request => [(sequence, .buildDml request)]
  | .vectorBatch group _ _ => group.map fun entry => (entry.1, .ordinary (.vectorEmbedding entry.2))
  | .postingBatch group _ => group.map fun entry => (entry.1, .ordinary entry.2)
  | .posting sequence op group =>
    (sequence, .ordinary op) :: group.map fun entry => (entry.1, .ordinary entry.2)

def SuspendedPass.unacked (pass : SuspendedPass) : List (Nat × DurableOp) :=
  pass.await.unacked ++ pass.rest

/-- The rows of the snapshot a pass will still send or acknowledge. -/
def DrainStatus.unacked : DrainStatus → List (Nat × DurableOp)
  | .done _ => []
  | .suspended await rest => await.unacked ++ rest

@[simp] theorem DrainStatus.unacked_done (result : Except PlanQueryError Unit) :
    (DrainStatus.done result).unacked = [] := rfl

@[simp] theorem DrainStatus.unacked_suspended (await : Await) (rest : List (Nat × DurableOp)) :
    (DrainStatus.suspended await rest).unacked = await.unacked ++ rest := rfl

/-- The leading vector rows and the rest are the entries. -/
theorem vectorRun_append (entries : List (Nat × DurableOp)) :
    ((vectorRun entries).1.map fun entry => (entry.1, ordinary (.vectorEmbedding entry.2))) ++
      (vectorRun entries).2 = entries := by
  fun_induction vectorRun entries with
  | case1 sequence op entries ih => simpa using ih
  | case2 entries h => rfl

/-- The leading postings and the rest are the entries. -/
theorem postingRun_append (entries : List (Nat × DurableOp)) :
    ((postingRun entries).1.map fun entry => (entry.1, ordinary entry.2)) ++
      (postingRun entries).2 = entries := by
  fun_induction postingRun entries with
  | case1 sequence op entries h ih => simpa using ih
  | case2 => rfl
  | case3 => rfl

/-- A run of postings holds nothing else. -/
theorem isPosting_of_mem_postingRun (h : entry ∈ (postingRun entries).1) :
    (ordinary entry.2).isPosting := by
  fun_induction postingRun entries with
  | case1 sequence op entries hposting ih =>
    rcases mem_cons.mp h with rfl | h
    · exact hposting
    · exact ih h
  | case2 => cases h
  | case3 => cases h

variable {clients : DrainClients} {q : DurableQueue} {store store' : DerivedIndexStore}

/-- A segment that was given these rows goes on with the last of them, and if
it does not end the pass, it passes no posting over. -/
structure DrainStatus.Follows (status : DrainStatus) (entries : List (Nat × DurableOp)) : Prop where
  suffix : status.unacked <:+ entries
  keeps : ∀ await rest, status = .suspended await rest →
    ∀ entry ∈ entries, entry.2.isPosting → entry ∈ status.unacked

namespace DrainStatus.Follows

/-- A pass that is done is behind every list of entries. -/
theorem done (result : Except PlanQueryError Unit) (entries : List (Nat × DurableOp)) :
    (DrainStatus.done result).Follows entries :=
  ⟨nil_suffix, fun _ _ h => by cases h⟩

/-- A suspended pass has what it waits for and the rest before it. -/
theorem suspended (await : Await) (rest : List (Nat × DurableOp)) :
    (DrainStatus.suspended await rest).Follows (await.unacked ++ rest) :=
  ⟨suffix_rfl, fun _ _ _ _ hentry _ => hentry⟩

/-- Rows in front that are no postings may be passed over. -/
theorem skip {status : DrainStatus} (h : status.Follows entries)
    (hskipped : ∀ entry ∈ skipped, entry.2.isPosting = false) :
    status.Follows (skipped ++ entries) where
  suffix := h.suffix.trans (suffix_append _ _)
  keeps := by
    intro await rest hstatus entry hentry hposting
    rcases mem_append.mp hentry with hentry | hentry
    · simp [hskipped entry hentry] at hposting
    · exact h.keeps await rest hstatus entry hentry hposting

end DrainStatus.Follows

/-- Sending vector rows loses none: each is acknowledged, waits for its reply or
is still to come. -/
theorem sendVectors_follows (clients : DrainClients) (q : DurableQueue) (store : DerivedIndexStore)
    (group : List (Nat × VectorEmbeddingSyncOp)) (rest : List (Nat × DurableOp)) :
    (sendVectors clients q store group rest).Follows
      ((group.map fun entry => (entry.1, ordinary (.vectorEmbedding entry.2))) ++ rest) := by
  unfold sendVectors
  cases vectorBatchPrefix clients (group.map (·.2)) with
  | error e => exact .done _ _
  | ok count =>
    cases q with
    | derivedIndexOutbox =>
      simp only
      split
      · exact .suspended (.vectorBatch group count _) rest
      · exact .done _ _
    | repairJournal => exact .suspended (.vectorBatch group count none) rest

/-- Nor does sending postings. -/
theorem sendPostings_follows (clients : DrainClients) (group : List (Nat × RepairPostingOp))
    (rest : List (Nat × DurableOp)) :
    (sendPostings clients group rest).Follows
      ((group.map fun entry => (entry.1, ordinary entry.2)) ++ rest) := by
  unfold sendPostings
  split
  · cases propertyBatchPrefix clients group with
    | error e => exact .done _ _
    | ok operations => exact .suspended (.postingBatch group operations) rest
  match group with
  | [] => exact .done _ _
  | (sequence, op) :: group =>
    simp only
    split
    · exact .done _ _
    · exact .suspended (.posting sequence op group) rest

/-- Nor does moving on to the next run, whichever kind it is. -/
theorem advance_follows (entries : List (Nat × DurableOp)) :
    (advance clients q store entries).Follows entries := by
  fun_induction advance clients q store entries with
  | case1 => exact .done _ _
  | case2 sequence request rest => exact .suspended (.buildDml sequence request) rest
  | case3 sequence op rest hvector =>
    have := sendVectors_follows clients q store ((sequence, op) :: (vectorRun rest).1)
      (vectorRun rest).2
    rwa [map_cons, cons_append, vectorRun_append] at this
  | case4 sequence op rest hvector ih =>
    have hskipped : ∀ entry ∈ [(sequence, ordinary (.vectorEmbedding op))],
        entry.2.isPosting = false := by simp [isPosting]
    exact ih.skip hskipped
  | case5 sequence op rest hop =>
    have := sendPostings_follows clients ((sequence, op) :: (postingRun rest).1)
      (postingRun rest).2
    rwa [map_cons, cons_append, postingRun_append] at this

/-- So a pass starts with all the rows of its queue before it. -/
theorem drainQueue_follows : (drainQueue clients q store).Follows (store.peekQueue q) := by
  unfold drainQueue
  split
  · exact advance_follows _
  · exact .done _ _

/-! ## What is sent -/

variable {group : List (Nat × RepairPostingOp)} {rest : List (Nat × DurableOp)}
  {outcome : VectorSyncBatchOutcome} {status : DrainStatus} {await : Await}

/-- A batch is a nonempty front part of the run, each posting translated. -/
theorem propertyBatchPrefix_eq_ok (h : propertyBatchPrefix clients group = .ok operations) :
    0 < operations.length ∧ operations.length ≤ group.length ∧
      (group.take operations.length).mapM (fun entry => toIndexMutation entry.2) = .ok operations := by
  unfold propertyBatchPrefix at h
  split at h
  · cases h
  · cases h
  · cases h
  next fitted hfitted =>
    obtain ⟨hpos, hle⟩ := adaptiveFittingPrefix_count hfitted
    have hlength : operations.length = fitted.entryCount := by
      rw [← (mapM_eq_ok_iff.mp h).length_eq, length_take, Nat.min_eq_left hle]
    rw [hlength]
    exact ⟨hpos, hle, h⟩

/-- The run ends where it does because the next row is no posting. -/
def NoPostingFirst (rest : List (Nat × DurableOp)) : Prop :=
  ∀ entry ∈ rest.head?, entry.2.isPosting = false

/-- What a suspended pass has sent is the batch of its unacknowledged
postings, and these are all postings up to the end of the run; the outbox rows
compared for a vector batch have the numbers of the batch. -/
def Await.WellSent (clients : DrainClients) (rest : List (Nat × DurableOp)) : Await → Prop
  | .postingBatch group operations =>
    (∀ entry ∈ group, (ordinary entry.2).isPosting) ∧ NoPostingFirst rest ∧
      propertyBatchPrefix clients group = .ok operations
  | .posting _ op group => (∃ mutation, toIndexMutation op = .ok mutation) ∧
      (ordinary op).isPosting ∧
      (∀ entry ∈ group, (ordinary entry.2).isPosting) ∧ NoPostingFirst rest
  | .vectorBatch group count submitted =>
    ∀ rows, submitted = some rows → rows.map (·.1) = (group.take count).map (·.1)
  | .buildDml _ _ => True

def DrainStatus.WellSent (clients : DrainClients) : DrainStatus → Prop
  | .done _ => True
  | .suspended await rest => await.WellSent clients rest

/-- Behind a run of postings no posting comes first: the run is as long as it
can be. -/
theorem postingRun_noPostingFirst (entries : List (Nat × DurableOp)) :
    NoPostingFirst (postingRun entries).2 := by
  fun_induction postingRun entries with
  | case1 sequence op entries h ih => exact ih
  | case2 sequence op entries h =>
    intro entry hentry
    obtain rfl : (sequence, ordinary op) = entry := by simpa using hentry
    simpa using h
  | case3 entries h =>
    intro entry hentry
    obtain ⟨tail, rfl⟩ := head?_eq_some_iff.mp hentry
    obtain ⟨sequence, op | request⟩ := entry
    · exact absurd rfl (h sequence op tail)
    · rfl

/-- The outbox rows compared with a vector batch carry the numbers of the batch. -/
theorem sendVectors_wellSent (group : List (Nat × VectorEmbeddingSyncOp))
    (rest : List (Nat × DurableOp)) :
    (sendVectors clients q store group rest).WellSent clients := by
  unfold sendVectors
  cases vectorBatchPrefix clients (group.map (·.2)) with
  | error e => trivial
  | ok count =>
    cases q with
    | derivedIndexOutbox =>
      simp only
      split
      next hnumbers =>
        rintro rows ⟨⟩
        exact hnumbers
      next => trivial
    | repairJournal => exact fun rows h => by cases h

/-- What is sent of a whole run of postings is the batch that fits. -/
theorem sendPostings_wellSent (hgroup : ∀ entry ∈ group, (ordinary entry.2).isPosting)
    (hrest : NoPostingFirst rest) :
    (sendPostings clients group rest).WellSent clients := by
  unfold sendPostings
  split
  · cases hbatch : propertyBatchPrefix clients group with
    | error e => trivial
    | ok operations => exact ⟨hgroup, hrest, hbatch⟩
  match group with
  | [] => trivial
  | (sequence, op) :: group =>
    simp only
    cases hop : toIndexMutation op with
    | error e => trivial
    | ok mutation =>
      exact ⟨⟨mutation, hop⟩, hgroup (sequence, op) (by simp),
        fun entry hentry => hgroup entry (by simp [hentry]), hrest⟩

/-- What is sent when a pass moves on is well sent. -/
theorem advance_wellSent (entries : List (Nat × DurableOp)) :
    (advance clients q store entries).WellSent clients := by
  fun_induction advance clients q store entries with
  | case1 => trivial
  | case2 sequence request rest => trivial
  | case3 sequence op rest hvector => exact sendVectors_wellSent _ _
  | case4 sequence op rest hvector ih => exact ih
  | case5 sequence op rest hop =>
    refine sendPostings_wellSent (fun entry hentry => ?_) (postingRun_noPostingFirst rest)
    rcases mem_cons.mp hentry with rfl | hentry
    · cases op with
      | vectorEmbedding op => exact absurd rfl (hop op)
      | _ => rfl
    · exact isPosting_of_mem_postingRun hentry

/-- So does the start of a pass. -/
theorem drainQueue_wellSent : (drainQueue clients q store).WellSent clients := by
  unfold drainQueue
  split
  · exact advance_wellSent _
  · trivial

/-! ## What a reply does -/

/-- How many of the unacknowledged rows a reply reports as applied. -/
def Await.acknowledged : Await → Reply → Nat
  | .buildDml _ _, .buildDml (.ok _) (.ok _) => 1
  | .vectorBatch _ _ _, .vector (.ok outcome) => outcome.applied
  | .postingBatch _ _, .progress (.ok progress) => progress.applied
  | .posting _ _ _, .posted (.ok _) => 1
  | _, _ => 0

/-- The reply says that the batch is finished. -/
def Await.Finished (await : Await) (reply : Reply) : Prop :=
  ∃ group operations applied, await = .postingBatch group operations ∧
    reply = .progress (.ok ⟨applied, none⟩)

/-- A reply ends the pass without a change, or the rows it reports as applied
are removed by their numbers and the pass goes on: behind them, or, when the
reply says that the batch is finished, behind the run.  In the outbox the rows
of a vector batch are compared with the queue first. -/
inductive Resumed (clients : DrainClients) (q : DurableQueue) (store : DerivedIndexStore)
    (await : Await) (rest : List (Nat × DurableOp)) (reply : Reply) :
    DerivedIndexStore → DrainStatus → Prop
  | ended (e : PlanQueryError) : Resumed clients q store await rest reply store (.done (.error e))
  | acknowledged {store' : DerivedIndexStore} {status : DrainStatus}
      (hstore : store.removeAll q
        ((await.unacked.take (await.acknowledged reply)).map (·.1)) = .ok store')
      (hcount : ∀ group operations, await = .postingBatch group operations →
        await.acknowledged reply ≤ operations.length)
      (hfollows : status.Follows (await.unacked.drop (await.acknowledged reply) ++ rest) ∨
        await.Finished reply ∧ status.Follows rest)
      (hsent : status.WellSent clients) : Resumed clients q store await rest reply store' status
  | vectors {store' : DerivedIndexStore} {status : DrainStatus}
      {submitted : List (Nat × DurableRow)} {outcome : VectorSyncBatchOutcome}
      (howner : q = .derivedIndexOutbox)
      (hkind : ∃ group count pending, await = .vectorBatch group count pending)
      (hstore : store.applyVectorOutcome submitted outcome = .ok store')
      (hnumbers : (submitted.take outcome.applied).map (·.1) =
        (await.unacked.take (await.acknowledged reply)).map (·.1))
      (hfollows : status.Follows (await.unacked.drop (await.acknowledged reply) ++ rest))
      (hsent : status.WellSent clients) : Resumed clients q store await rest reply store' status

/-- The sequences of the first rows of a group do not depend on how its
operations are wrapped. -/
theorem take_map_fst {α : Type} (group : List (Nat × α)) (f : α → DurableOp) (n : Nat) :
    ((group.map fun entry => (entry.1, f entry.2)).take n).map (·.1) = (group.take n).map (·.1) := by
  rw [← map_take, map_map]
  rfl

/-- After a part of a vector run is acknowledged the pass goes on with the run
or behind it. -/
theorem nextVectors {group : List (Nat × VectorEmbeddingSyncOp)}
    (h : status = if outcome.isTerminal || (group.drop outcome.applied).isEmpty then
        advance clients q store rest
      else sendVectors clients q store (group.drop outcome.applied) rest) :
    status.Follows ((group.map fun entry =>
        (entry.1, ordinary (.vectorEmbedding entry.2))).drop outcome.applied ++ rest) ∧
      status.WellSent clients := by
  subst h
  rw [← map_drop]
  split
  · refine ⟨(advance_follows rest).skip ?_, advance_wellSent rest⟩
    intro entry hentry
    obtain ⟨entry, -, rfl⟩ := mem_map.mp hentry
    rfl
  · exact ⟨sendVectors_follows .., sendVectors_wellSent _ _⟩

/-- A valid outcome applied no more than was sent. -/
theorem applied_le_of_validate (h : outcome.validate count = .ok u) : outcome.applied ≤ count := by
  cases outcome with
  | progress applied =>
    simp only [VectorSyncBatchOutcome.validate] at h
    split at h
    next hle => exact hle
    next => cases h
  | terminal applied failedIndex error =>
    simp only [VectorSyncBatchOutcome.validate] at h
    split at h
    next hle => exact hle.2.le
    next => cases h

/-- A vector batch that is resumed acknowledges a leading part of what was sent,
and sends on or ends. -/
theorem resumeVectors_cases {group : List (Nat × VectorEmbeddingSyncOp)}
    (hwell : (Await.vectorBatch group count submitted).WellSent clients rest)
    (h : resumeVectors clients q store group count submitted rest outcome = .ok (store', status)) :
    Resumed clients q store (.vectorBatch group count submitted) rest (.vector (.ok outcome)) store'
      status := by
  unfold resumeVectors at h
  split at h
  · cases h
    exact .ended _
  next hvalid =>
    split at h
    · cases h
      exact .ended _
    cases q with
    | derivedIndexOutbox =>
      simp only at h
      split at h
      · cases h
        exact .ended _
      next hstore =>
        cases h
        obtain ⟨hfollows, hsent⟩ := nextVectors rfl
        refine .vectors rfl ⟨_, _, _, rfl⟩ hstore ?_ hfollows hsent
        -- an outcome for no rows is refused
        obtain _ | rows := submitted
        · obtain ⟨_, -, h⟩ := bind_inv hstore
          simp at h
        have hle := applied_le_of_validate hvalid
        calc ((rows.take outcome.applied).map (·.1))
            = ((group.take count).take outcome.applied).map (·.1) := by
              rw [map_take, hwell rows rfl, ← map_take]
          _ = (group.take outcome.applied).map (·.1) := by
              rw [take_take, Nat.min_eq_left hle]
          _ = _ := (take_map_fst group (.ordinary ∘ .vectorEmbedding) _).symm
    | repairJournal =>
      simp only at h
      split at h
      · cases h
        exact .ended _
      obtain ⟨mid, hmid, h⟩ := bind_inv h
      cases h
      obtain ⟨hfollows, hsent⟩ := nextVectors rfl
      refine .acknowledged ?_ (by simp) (.inl hfollows) hsent
      rw [← hmid]
      exact congrArg _ (take_map_fst group (.ordinary ∘ .vectorEmbedding) _)

/-- So does a posting batch, by the progress its reply reports. -/
theorem resumePostings_cases {operations : List IndexPostingMutation}
    (hwell : (Await.postingBatch group operations).WellSent clients rest)
    (h : resumePostings clients q store group operations rest progress = .ok (store', status)) :
    Resumed clients q store (.postingBatch group operations) rest (.progress (.ok progress)) store'
      status := by
  unfold resumePostings at h
  split at h
  · cases h
    exact .ended _
  next hcount =>
    obtain ⟨mid, hmid, h⟩ := bind_inv h
    have hstore : store.removeAll q (((Await.postingBatch group operations).unacked.take
        progress.applied).map (·.1)) = .ok mid := by
      rw [← hmid]
      exact congrArg _ (take_map_fst group .ordinary _)
    have hle : ∀ group' operations', Await.postingBatch group operations =
        .postingBatch group' operations' → progress.applied ≤ operations'.length := by
      rintro _ _ ⟨⟩
      omega
    have hdrop : ∀ entry ∈ group.drop progress.applied, (ordinary entry.2).isPosting :=
      fun entry hentry => hwell.1 entry (mem_of_mem_drop hentry)
    split at h
    next hend =>
      cases h
      refine .acknowledged hstore hle ?_ (advance_wellSent rest)
      rcases Bool.or_eq_true_iff.mp hend with hnone | hempty
      · refine .inr ⟨⟨group, operations, progress.applied, rfl, ?_⟩, advance_follows rest⟩
        rw [← Option.isNone_iff_eq_none.mp hnone]
      refine .inl ?_
      have hnil : (Await.postingBatch group operations).unacked.drop progress.applied = [] := by
        change (group.map _).drop progress.applied = []
        rw [← map_drop, isEmpty_iff.mp hempty, map_nil]
      change DrainStatus.Follows _ ((Await.postingBatch group operations).unacked.drop
        progress.applied ++ rest)
      rw [hnil]
      exact advance_follows rest
    · cases h
      refine .acknowledged hstore hle (.inl ?_) (sendPostings_wellSent hdrop hwell.2.1)
      exact map_drop .. ▸ sendPostings_follows clients (group.drop progress.applied) rest

/-- All that a reply can do to a pass and the store. -/
theorem resume_cases (hwell : await.WellSent clients rest)
    (h : resume clients q store await rest reply = .ok (store', status)) :
    Resumed clients q store await rest reply store' status := by
  unfold resume at h
  split at h
  · cases h
    exact .ended _
  · cases h
    exact .ended _
  · obtain ⟨mid, hmid, h⟩ := bind_inv h
    cases h
    exact .acknowledged hmid (by simp) (.inl (advance_follows rest)) (advance_wellSent rest)
  · cases h
    exact .ended _
  · exact resumeVectors_cases hwell h
  · cases h
    exact .ended _
  · exact resumePostings_cases hwell h
  · cases h
    exact .ended _
  next sequence op group _ =>
    obtain ⟨mid, hmid, h⟩ := bind_inv h
    split at h
    next hempty =>
      cases h
      refine .acknowledged hmid (by simp) (.inl ?_) (advance_wellSent rest)
      obtain rfl := isEmpty_iff.mp hempty
      exact advance_follows rest
    · cases h
      exact .acknowledged hmid (by simp) (.inl (sendPostings_follows clients group rest))
        (sendPostings_wellSent hwell.2.2.1 hwell.2.2.2)
  · cases h

section

variable (h : Resumed clients q store await rest reply store' status)

include h

/-- A reply puts no row into a queue. -/
theorem Resumed.inherits (q' : DurableQueue) : Inherits store store' q' := by
  cases h with
  | ended e => exact .refl store q'
  | acknowledged hstore =>
    by_cases hq : q' = q
    · exact hq ▸ inherits_of_removeAll hstore
    · exact .of_eq ((removeAll_rows hstore).2.1 q' hq)
  | vectors howner hkind hstore =>
    obtain ⟨-, hinherits, hother, -⟩ := applyVectorOutcome_spec hstore
    by_cases hq : q' = .derivedIndexOutbox
    · exact hq ▸ hinherits
    · exact .of_eq (hother q' hq)

/-- The other queue is not touched. -/
theorem Resumed.other_rows (hq : q' ≠ q) : store'.rows q' = store.rows q' := by
  cases h with
  | ended e => rfl
  | acknowledged hstore => exact (removeAll_rows hstore).2.1 q' hq
  | vectors howner hkind hstore =>
    exact (applyVectorOutcome_spec hstore).2.2.1 q' (howner ▸ hq)

/-- Resuming a pass keeps the floor exact: rows and floor entries go together.
-/
theorem Resumed.floorExact (hfloor : store.FloorExact) : store'.FloorExact := by
  cases h with
  | ended e => exact hfloor
  | acknowledged hstore =>
    obtain ⟨mid, hmid, hexact⟩ := hfloor.removeAll _
    exact Except.ok.inj (hmid.symm.trans hstore) ▸ hexact
  | vectors howner hkind hstore => exact hfloor.applyVectorOutcome hstore

/-- A pass goes on with a last part of what it held. -/
theorem Resumed.unacked_suffix :
    status.unacked <:+ await.unacked ++ rest := by
  cases h with
  | ended e => exact nil_suffix
  | acknowledged hstore hcount hfollows =>
    rcases hfollows with hfollows | ⟨-, hfollows⟩
    · exact hfollows.suffix.trans (suffix_append_self_iff.mpr (drop_suffix _ _))
    · exact hfollows.suffix.trans (suffix_append _ _)
  | vectors howner hkind hstore hnumbers hfollows =>
    exact hfollows.suffix.trans (suffix_append_self_iff.mpr (drop_suffix _ _))

/-- What a resumed pass sends next is well sent too. -/
theorem Resumed.wellSent :
    status.WellSent clients := by
  cases h with
  | ended e => trivial
  | acknowledged hstore hcount hfollows hsent => exact hsent
  | vectors howner hkind hstore hnumbers hfollows hsent => exact hsent

end

/-- The operations graph-index reports as applied, of those sent. -/
def Await.reported : Await → Reply → List (Nat × DurableOp)
  | .postingBatch group operations, .progress (.ok progress) =>
    ((group.take operations.length).take progress.applied).map fun entry =>
      (entry.1, .ordinary entry.2)
  | .posting sequence op _, .posted (.ok _) => [(sequence, .ordinary op)]
  | _, _ => []

/-- Of the rows a reply acknowledges, the postings are those the index reports
as applied. -/
theorem mem_reported
    (hcount : ∀ group operations, await = .postingBatch group operations →
      await.acknowledged reply ≤ operations.length)
    (hentry : entry ∈ await.unacked.take (await.acknowledged reply)) (hposting : entry.2.isPosting) :
    entry ∈ await.reported reply := by
  cases await with
  | buildDml sequence request =>
    obtain rfl := mem_singleton.mp (mem_of_mem_take hentry)
    cases hposting
  | vectorBatch group count submitted =>
    obtain ⟨vector, -, rfl⟩ := mem_map.mp (mem_of_mem_take hentry)
    cases hposting
  | postingBatch group operations =>
    rcases reply with _ | _ | (_ | progress) | _ <;>
      try simp [Await.acknowledged] at hentry
    have hle := hcount group operations rfl
    simp only [Await.acknowledged] at hle
    simp only [Await.reported, take_take, Nat.min_eq_left hle]
    rw [map_take]
    exact hentry
  | posting sequence op group =>
    rcases reply with _ | _ | _ | (_ | _) <;>
      simp_all [Await.acknowledged, Await.reported, Await.unacked]

end Gleaph
