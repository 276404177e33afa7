import Gleaph.Bulk.Rows

/-!
# Gleaph.Bulk.System

The commands of a bulk load as they run on the router
(`crates/router/src/bulk_load.rs`, the row mutations of
`crates/router/src/gql.rs`).

A command runs until it calls another canister; what is left of it is then a
task, with its local values.  Any task may be resumed next, with any reply, and
a task may be lost.  A call that turns out not to be needed is a task resumed
at once.  A plan sent to a shard is delivered at some time or never, whether
its task lives or not.  The shards are their mutation journals, and a count of
how often each row was written: a shard runs a plan only if its journal has no
entry of the mutation.
-/

namespace Gleaph.Bulk

/-! ## Shards -/

/-- The journals of the shards, by mutation, and how often each row of a chunk
was written. -/
structure Graph where
  journal : Nat → Option Nat
  writes : BulkLoadChunkReceiptKey → Nat → Nat

/-- What becomes of a plan that is delivered. -/
inductive Delivery where
  | applied | noTarget | failed
  deriving DecidableEq, Repr

namespace Graph

def fresh : Graph := ⟨fun _ => none, fun _ _ => 0⟩

/-- A plan is delivered: a mutation with a journal entry is not run again. -/
def deliver (g : Graph) (call : PlanCall) : Delivery → Graph
  | .failed => g
  | .noTarget =>
    if (g.journal call.mutationId).isSome then g
    else { g with journal := Function.update g.journal call.mutationId (some 0) }
  | .applied =>
    if (g.journal call.mutationId).isSome then g
    else
      { journal := Function.update g.journal call.mutationId (some 1)
        writes := Function.update g.writes call.chunk
          (Function.update (g.writes call.chunk) call.key.ordinal
            (g.writes call.chunk call.key.ordinal + 1)) }

end Graph

/-! ## Tasks -/

/-- What a command answers. -/
inductive Response where
  | started (nextChunkIndex : Nat)
  | appended (chunkIndex nextOffset : Nat) (receipt : AtomicInsertReceipt)
  | updated (chunkIndex nextOffset updatedRowCount : Nat)
  | finalizeAccepted (state : BulkLoadLifecycle)
  | abortAccepted (state : BulkLoadLifecycle)
  /-- The recovery of a mutation record has no caller. -/
  | recovered
  deriving DecidableEq, Repr

/-- The locals of `drive_bulk_child`, and the command it runs for. -/
structure Drive where
  job : Nat
  chunk : Nat
  fingerprint : Fingerprint
  target : BulkLoadTarget
  aborting : Bool
  deriving DecidableEq, Repr

/-- The call `drive_bulk_child` waits for. -/
inductive DriveCall where
  | dispatch (request : BulkLoadGraphRequest)
  | project
  | retire
  deriving DecidableEq, Repr

/-- The locals of `append_bulk_load_updates` up to the admission.  An item is a
row as its author encoded it. -/
structure UpdateAppend where
  job : Nat
  chunk : Nat
  fingerprint : Fingerprint
  items : List (List UInt8)
  existingChild : Option BulkLoadChunkReceipt
  deriving DecidableEq, Repr

namespace UpdateAppend

def recordedPrefix (a : UpdateAppend) : Nat := (a.existingChild.bind (·.updatedRowCount)).getD 0

end UpdateAppend

/-- The locals of `abort_bulk_load` at an update chunk. -/
structure UpdateAbort where
  job : Nat
  chunk : Nat
  child : BulkLoadChunkReceipt
  rowCount : Nat
  deriving DecidableEq, Repr

structure ResolvedUpdateRow where
  ordinal : Nat
  vertexId : List UInt8
  item : List UInt8
  deriving DecidableEq, Repr

/-- The locals of the loop over the rows. -/
structure RowLoop where
  job : Nat
  chunk : Nat
  fingerprint : Fingerprint
  /-- `committed_prefix + resolved.len()`. -/
  rowCount : Nat
  unresolved : List Nat
  deriving DecidableEq, Repr

/-- Where `capture_scalar_mutation_outcome` waits. -/
inductive CaptureCall where
  | journal | project (count : Nat)
  deriving DecidableEq, Repr

/-- Where the mutation of a row waits. -/
inductive RowCall where
  /-- `reconcile_router_mutation_projection` of a captured row. -/
  | reconcile (routingOwner : Bool) (call : CaptureCall)
  /-- The shard's reply. -/
  | plan
  /-- The capture after the reply; `none` if nothing was sent. -/
  | capture (reply : Option (Except String Nat)) (call : CaptureCall)
  /-- `maybe_finalize_hot_vertices_after_dml`. -/
  | finalizeHot (count : Nat)
  deriving DecidableEq, Repr

/-- A command, or a recovery, that waits for a call. -/
inductive Task where
  | resolveEndpoints (drive : Drive)
  | drive (drive : Drive) (call : DriveCall)
  | settleAppend (append : UpdateAppend) (outcomes : List UpdateRowOutcome) (ordinal mutationId : Nat)
  | settleAbort (abort : UpdateAbort) (outcomes : List UpdateRowOutcome) (ordinal mutationId : Nat)
  | resolveMatchKeys (append : UpdateAppend) (committed : Nat) (unresolved : List Nat)
  | row (loop : RowLoop) (row : ResolvedUpdateRow) (rest : List ResolvedUpdateRow)
      (mutationId : Nat) (call : RowCall)
  | recover (key : RowKey) (mutationId : Nat) (call : CaptureCall)
  deriving DecidableEq, Repr

/-- What a resumed task is told. -/
inductive Reply where
  | failed (message : String)
  /-- The projection has caught up, the child is retired, the hot vertices are
  finalized. -/
  | done
  /-- The Graph request built from the resolved endpoints. -/
  | request (request : BulkLoadGraphRequest)
  | receipt (receipt : BulkLoadGraphReceipt)
  | vertexIds (ids : List (List UInt8))
  /-- The journal as it was when it was read: as it is now, or before the
  mutation had its entry. -/
  | journal (read : Bool)
  | plan (rowCount : Nat)
  deriving DecidableEq, Repr

/-- Whether a row's statement can be planned and routed. -/
inductive PlanFate where
  | planned
  /-- Refused before the row is reserved. -/
  | unplanned (error : RouterError)
  /-- Refused after it: the reservation is released. -/
  | refused (error : RouterError)
  deriving DecidableEq, Repr

/-- What a running command reads besides the state: the time, the catalogs, and
how its rows are planned. -/
structure Moment where
  now : Nat
  catalogs : Option RouterError
  fate : Nat → PlanFate

/-- The catalogs are there, and every row is planned. -/
def Moment.planned : Moment := ⟨0, none, fun _ => .planned⟩

/-- The parts of the environment that do not change. -/
structure SystemEnv extends BulkEnv where
  /-- The request fingerprint of a row's plan. -/
  requestFingerprint : ResolvedUpdateRow → Fingerprint

/-- An environment that admits every request and receipt. -/
def SystemEnv.admitting : SystemEnv where
  graphId := 1
  requestValid _ := true
  graphReceiptValid _ := true
  receiptFits _ := true
  requestFingerprint _ := []

/-- How a running command stops. -/
inductive Flow where
  | ended (result : Except RouterError Response)
  | suspended (task : Task)

/-- A call on the store; an error ends the command. -/
def Router.call (r : Router) (result : Except RouterError Store) (next : Router → Router × Flow) :
    Router × Flow :=
  match result with
  | .error e => (r, .ended (.error e))
  | .ok store => next { r with store }

def Router.fail (r : Router) (e : RouterError) : Router × Flow := (r, .ended (.error e))

/-! ## Insert chunks -/

section Commands

variable (env : SystemEnv)

/-- `committed_offset`, and the counts of updated rows. -/
def offsetU32 (count : Nat) (message : String) : Except RouterError Nat :=
  if count < 2 ^ 32 then .ok count else .error (.internal message)

/-- The lifecycle an abort answers. -/
def abortAccepted (s : Store) : Except RouterError Response := do
  let record ← s.lookup
  let c ← record.bulkParent
  .ok (.abortAccepted c.lifecycle)

/-- The answer of a driven chunk. -/
def driven (s : Store) (d : Drive) (receipt : AtomicInsertReceipt) : Except RouterError Response :=
  if d.aborting then abortAccepted s
  else do
    let offset ← offsetU32 receipt.logicalOperationCount "bulk-load chunk committed count exceeds u32"
    .ok (.appended d.chunk offset receipt)

/-- One round of `drive_bulk_child`, up to its call. -/
def driveBulkChild (r : Router) (d : Drive) : Router × Flow :=
  match r.store.receipt d.job d.chunk with
  | none => r.fail (.internal "bulk-load child receipt row is missing")
  | some child =>
    if child.chunkFingerprint ≠ d.fingerprint then
      r.fail (.conflict "bulk-load child fingerprint conflicts with the durable row")
    else
      match child.progress with
      | .canonicalPending =>
        match child.graphRequest with
        | none => r.fail (.internal "bulk-load child lacks its Graph request")
        | some request => (r, .suspended (.drive d (.dispatch request)))
      | .canonicalCommitted | .projectionPending =>
        if child.graphReceipt.isNone then
          r.fail (.internal "bulk-load child lacks its Graph receipt")
        else
          r.call (r.store.recordBulkLoadProjectionPending env.toBulkEnv d.job d.chunk d.fingerprint)
            fun r => (r, .suspended (.drive d .project))
      | .retirementPending =>
        if child.graphReceipt.isNone then
          r.fail (.internal "bulk-load child lacks its Graph receipt")
        else if child.graphRequest.isNone then
          r.fail (.internal "bulk-load child lacks its Graph request")
        else (r, .suspended (.drive d .retire))
      | .completed =>
        match child.publicReceipt with
        | none => r.fail (.internal "completed bulk-load child lacks public receipt")
        | some receipt => (r, .ended (driven r.store d receipt))

/-- `drive_bulk_child` after the Graph's receipt. -/
def driveDispatched (r : Router) (d : Drive) (request : BulkLoadGraphRequest)
    (receipt : BulkLoadGraphReceipt) : Router × Flow :=
  if request.graphId ≠ env.graphId ∨ request.shardId ≠ d.target.shardId ∨
      request.graphCanister ≠ d.target.graphCanister then
    r.fail (.internal "bulk-load child target changed after admission")
  else
    match receipt.toPublic.validate with
    | .error message => r.fail (.invalidArgument message)
    | .ok () =>
      r.call (r.store.recordBulkLoadCanonicalCommitted env.toBulkEnv d.job d.chunk d.fingerprint
        receipt receipt.toPublic) fun r => driveBulkChild env r d

/-- `append_bulk_load` of an insert chunk. -/
def appendBulkLoad (r : Router) (chunk : Nat) (fingerprint : Fingerprint) : Router × Flow :=
  match r.store.lookup with
  | .error e => r.fail e
  | .ok record =>
    match record.bulkParent with
    | .error e => r.fail e
    | .ok c =>
      let d : Drive := ⟨record.mutationId, chunk, fingerprint, c.target, false⟩
      if c.receiptGcCursor.isSome then
        r.fail (.conflict "client_bulk_key expired while bulk-load receipt GC is active")
      else
        match r.store.receipt record.mutationId chunk with
        | some child =>
          if child.chunkFingerprint ≠ fingerprint then
            r.fail (.conflict "bulk-load chunk fingerprint conflicts with the durable row")
          else driveBulkChild env r d
        | none =>
          if c.lifecycle ≠ .opened ∨ chunk ≠ c.nextChunkIndex then
            r.fail (.conflict "bulk-load append is not the next admissible chunk")
          else (r, .suspended (.resolveEndpoints d))

/-- `append_bulk_load` after the endpoints are resolved. -/
def admitInsert (r : Router) (d : Drive) (request : BulkLoadGraphRequest) : Router × Flow :=
  if request.graphId ≠ env.graphId ∨ request.shardId ≠ d.target.shardId ∨
      request.graphCanister ≠ d.target.graphCanister then
    r.fail (.conflict "bulk-load Graph request does not match pinned target")
  else
    let child : BulkLoadChunkReceipt :=
      { chunkFingerprint := d.fingerprint, graphRequest := some request, childMutationId := 1 }
    match r.store.admitBulkLoadChild env.toBulkEnv d.job d.chunk d.fingerprint child with
    | .error e => r.fail e
    | .ok (_, store) => driveBulkChild env { r with store } d

/-! ## Rows -/

/-- Where the mutation of a row has come to. -/
inductive RowFlow where
  | failed (error : RouterError)
  | counted (rowCount : Nat)
  | waits (mutationId : Nat) (call : RowCall)

section

variable (r : Router)

section

variable (key : RowKey) (mutationId : Nat)

/-- `dispatch_plan_group` of the one shard of a row. -/
def sendRow : Router × RowFlow :=
  match r.scalarDispatchGate key mutationId with
  | .error e => (r, .failed e)
  | .ok (.completed count) => (r, .counted count)
  | .ok .reconcile => (r, .waits mutationId (.capture none .journal))
  | .ok .dispatch => (r.send key mutationId, .waits mutationId .plan)

def releaseRoutingIfOwner (routingOwner : Bool) : Except RouterError Router :=
  if routingOwner then r.abandonRouting key mutationId else .ok r

/-- `prepare_mutation_for_batch` after the replay of a captured outcome. -/
def dispatchRow (routingOwner : Bool) (fate : PlanFate) : Router × RowFlow :=
  match r.completedRowCount key with
  | some count => (r, .counted count)
  | none =>
    match fate with
    | .unplanned refusal | .refused refusal =>
      match releaseRoutingIfOwner r key mutationId routingOwner with
      | .error e => (r, .failed e)
      | .ok r => (r, .failed refusal)
    | .planned =>
      match r.recordRouterMutationShards key mutationId with
      | .error e => (r, .failed e)
      | .ok r => sendRow r key mutationId

end

/-- `gql_execute_idempotent_on_vertex` up to its first call. -/
def executeRow (loop : RowLoop) (row : ResolvedUpdateRow) (m : Moment) : Router × RowFlow :=
  let key : RowKey := ⟨loop.chunk, row.ordinal⟩
  match m.fate row.ordinal with
  | .unplanned e => (r, .failed e)
  | fate =>
    match r.reserveBulkLoadUpdateRow key (env.requestFingerprint row) ⟨loop.job, loop.chunk⟩ m.now with
    | .error e => (r, .failed e)
    | .ok (reservation, r) =>
      match r.completedRowCount key with
      | some count => (r, .counted count)
      | none =>
        if (r.rows key).any fun record =>
            record.shard.any fun shard => shard.completed && !shard.projectionAdvanced then
          (r, .waits reservation.mutationId (.reconcile reservation.routingOwner .journal))
        else dispatchRow r key reservation.mutationId reservation.routingOwner fate

/-- `capture_scalar_mutation_outcome` after the journal is read. -/
def captureRow (key : RowKey) (mutationId : Nat) (entry : Option Nat) (now : Nat) :
    Except RouterError (Option Nat × Router) :=
  match entry with
  | none => .ok (none, r)
  | some count => do
    let r ← r.recordCanonicalCompleted key mutationId count now
    .ok (some count, r)

/-- The end of `execute_prepared_mutation`: the shard's outcome is published. -/
def publishRow (key : RowKey) (mutationId count now : Nat) : Router × RowFlow :=
  match r.recordProjectionAdvanced key mutationId now with
  | .error e => (r, .failed e)
  | .ok r => (r, .counted ((r.completedRowCount key).getD count))

/-- `execute_prepared_mutation` after the capture: the reply must agree with the
journal. -/
def repliedRow (mutationId : Nat) (reply : Option (Except String Nat)) (entry : Option Nat) :
    Router × RowFlow :=
  match reply, entry with
  | some (.ok count), some journaled =>
    if journaled ≠ count then
      (r, .failed (.conflict "scalar reply does not match a completed Graph journal"))
    else (r, .waits mutationId (.finalizeHot journaled))
  | some (.ok _), none =>
    (r, .failed (.conflict "scalar reply does not match a completed Graph journal"))
  | _, some journaled => (r, .waits mutationId (.finalizeHot journaled))
  | some (.error e), none => (r, .failed (.invalidArgument e))
  | none, none =>
    (r, .failed (.conflict "captured scalar outcome has no completed Graph journal"))

/-- `reconcile_router_mutation_projection`, and what follows it. -/
def reconciledRow (key : RowKey) (mutationId : Nat) (routingOwner : Bool) (fate : PlanFate)
    (now : Nat) : Router × RowFlow :=
  match r.recordProjectionAdvanced key mutationId now with
  | .error e => (r, .failed e)
  | .ok r => dispatchRow r key mutationId routingOwner fate

end

/-- The entry a task reads from the journal of its mutation. -/
def Graph.read (g : Graph) (mutationId : Nat) (read : Bool) : Option Nat :=
  if read then g.journal mutationId else none

/-- The mutation of a row after a reply; a reply of another kind changes
nothing. -/
def resumeRow (g : Graph) (r : Router) (loop : RowLoop) (row : ResolvedUpdateRow) (mutationId : Nat)
    (m : Moment) : RowCall → Reply → Option (Router × RowFlow)
  | .reconcile owner .journal, .journal read =>
    match captureRow r ⟨loop.chunk, row.ordinal⟩ mutationId (g.read mutationId read) m.now with
    | .error e => some (r, .failed e)
    | .ok (some count, r) => some (r, .waits mutationId (.reconcile owner (.project count)))
    | .ok (none, r) =>
      some (r, .failed (.invalidArgument "completed on router shard but graph journal is unavailable"))
  | .reconcile owner (.project _), .done =>
    some (reconciledRow r ⟨loop.chunk, row.ordinal⟩ mutationId owner (m.fate row.ordinal) m.now)
  | .plan, .plan count => some (r, .waits mutationId (.capture (some (.ok count)) .journal))
  | .plan, .failed message =>
    some (r, .waits mutationId (.capture (some (.error message)) .journal))
  | .capture reply .journal, .journal read =>
    match captureRow r ⟨loop.chunk, row.ordinal⟩ mutationId (g.read mutationId read) m.now with
    | .error e => some (r, .failed e)
    | .ok (some count, r) => some (r, .waits mutationId (.capture reply (.project count)))
    | .ok (none, r) => some (repliedRow r mutationId reply none)
  | .capture reply (.project count), .done => some (repliedRow r mutationId reply (some count))
  | .finalizeHot count, .done =>
    some (publishRow r ⟨loop.chunk, row.ordinal⟩ mutationId count m.now)
  | .reconcile _ _, .failed message | .capture _ _, .failed message | .finalizeHot _, .failed message =>
    some (r, .failed (.invalidArgument message))
  | _, _ => none

/-! ## Update chunks -/

/-- The answer for a completed update chunk. -/
def updated (chunk count : Nat) : Except RouterError Response := do
  let offset ← offsetU32 count "bulk-load update row count exceeds u32"
  .ok (.updated chunk offset count)

/-- The end of the loop over the rows. -/
def completeRows (r : Router) (loop : RowLoop) (now : Nat) : Router × Flow :=
  r.call (r.store.completeBulkLoadUpdateChild env.toBulkEnv loop.job loop.chunk loop.fingerprint
    loop.rowCount now) fun r => (r, .ended (updated loop.chunk loop.rowCount))

/-- The loop after a row's mutation: a written row advances the prefix. -/
def afterRow (loop : RowLoop) (row : ResolvedUpdateRow) (rest : List ResolvedUpdateRow)
    (next : Router → Router × Flow) : Router × RowFlow → Router × Flow
  | (r, .failed e) => r.fail e
  | (r, .waits mutationId call) => (r, .suspended (.row loop row rest mutationId call))
  | (r, .counted count) =>
    match appliedTargetOutcome count with
    | .error e => r.fail e
    | .ok .committed =>
      r.call (r.store.recordBulkLoadUpdateProgress env.toBulkEnv loop.job loop.chunk
        loop.fingerprint (row.ordinal + 1)) next
    | .ok _ => r.fail (.notFound "bulk-load update target is no longer eligible")

/-- The loop over the rows that are left. -/
def runRows (loop : RowLoop) (m : Moment) : List ResolvedUpdateRow → Router → Router × Flow
  | [], r => completeRows env r loop m.now
  | row :: rest, r =>
    let execute := afterRow env loop row rest (runRows loop m rest) (executeRow env r loop row m)
    match r.store.bulkLoadUpdateDispatchGate loop.job loop.chunk with
    | .opened => execute
    | .settleOnly =>
      if row.ordinal ∈ loop.unresolved then execute else r.fail (.busy "bulk_load.append")
    | .closed => r.fail (.busy "bulk_load.append")

/-- The rows from `start` on, with their targets. -/
def resolvedRows (start : Nat) (items ids : List (List UInt8)) : List ResolvedUpdateRow :=
  (((items.drop start).zip ids).zipIdx start).map fun row => ⟨row.2, row.1.2, row.1.1⟩

section

variable (r : Router)

section

variable (a : UpdateAppend) (m : Moment)

/-- The admission of an update chunk, and its rows from `committed` on. -/
def admitRows (committed : Nat) (unresolved : List Nat) (identities : List (List UInt8))
    (rows : List ResolvedUpdateRow) : Router × Flow :=
  match r.store.admitBulkLoadUpdateChild env.toBulkEnv a.job a.chunk a.fingerprint
      (some identities) with
  | .error e => r.fail e
  | .ok (.alreadyCompleted, store) =>
    match (store.receipt a.job a.chunk).bind (·.updatedRowCount) with
    | none => r.fail (.internal "completed update child lacks its receipt count")
    | some count => ({ r with store }, .ended (updated a.chunk count))
  | .ok (.granted, store) =>
    runRows env ⟨a.job, a.chunk, a.fingerprint, committed + rows.length, unresolved⟩ m rows
      { r with store }

/-- `append_bulk_load_updates` after the durable prefix is recorded. -/
def resolveUpdates (settlement : UpdateSettlement) : Router × Flow :=
  if settlement.unreadable ≠ [] then r.fail (.busy "bulk_load.append")
  else
    match a.existingChild with
    | none => (r, .suspended (.resolveMatchKeys a settlement.committed settlement.unresolved))
    | some child =>
      match child.resolvedUpdateVertexIds with
      | none => r.fail (.internal "pending update child lacks its target identities")
      | some ids =>
        if ids.length ≠ a.items.length then
          r.fail (.internal "pending update identities do not match the authored chunk")
        else
          match m.catalogs with
          | some e => r.fail e
          | none =>
            admitRows env r a m settlement.committed settlement.unresolved ids
              (resolvedRows settlement.committed a.items (ids.drop settlement.committed))

/-- `append_bulk_load_updates` after its match keys are resolved: each row needs
its vertex. -/
def admitResolved (committed : Nat) (unresolved : List Nat) (ids : List (List UInt8)) :
    Router × Flow :=
  if ids.length ≠ a.items.length - committed then
    r.fail (.internal "resolved update vertex identity missing")
  else admitRows env r a m committed unresolved ids (resolvedRows committed a.items ids)

/-- `append_bulk_load_updates` after the rows are settled. -/
def settledAppend (outcomes : List UpdateRowOutcome) : Router × Flow :=
  let settlement := settleOutcomes a.recordedPrefix outcomes
  if settlement.committedAfterGap then
    r.fail (.internal "bulk-load update chunk has a committed row beyond a non-committed one")
  else if a.recordedPrefix < settlement.committed then
    r.call (r.store.recordBulkLoadUpdateProgress env.toBulkEnv a.job a.chunk a.fingerprint
      settlement.committed) fun r => resolveUpdates env r a m settlement
  else resolveUpdates env r a m settlement

/-- `append_bulk_load_updates` as far as its rows are settled. -/
def settleAppend : Settling → Router × Flow
  | .failed e => r.fail e
  | .reading outcomes ordinal mutationId =>
    (r, .suspended (.settleAppend a outcomes ordinal mutationId))
  | .settled outcomes => settledAppend env r a m outcomes

end

def appendBulkLoadUpdates (chunk : Nat) (fingerprint : Fingerprint) (items : List (List UInt8))
    (m : Moment) : Router × Flow :=
  match r.store.lookup with
  | .error e => r.fail e
  | .ok record =>
    match record.bulkParent with
    | .error e => r.fail e
    | .ok c =>
      let existing := r.store.receipt record.mutationId chunk
      let a : UpdateAppend := ⟨record.mutationId, chunk, fingerprint, items, existing⟩
      if c.receiptGcCursor.isSome then
        r.fail (.conflict "client_bulk_key expired while bulk-load receipt GC is active")
      else if existing.any fun child => child.chunkFingerprint ≠ fingerprint then
        r.fail (.conflict "bulk-load chunk fingerprint conflicts with the durable row")
      else if existing.any fun child => child.progress.isCompleted then
        match existing.bind (·.updatedRowCount) with
        | none => r.fail (.internal "completed update child lacks its receipt count")
        | some count => (r, .ended (updated chunk count))
      else
        settleAppend env r a m (settleUpdateRows r.rows chunk [] a.recordedPrefix
          (items.length - a.recordedPrefix))

/-! ## Finalize and abort -/

def finalizeBulkLoad (now : Nat) : Router × Flow :=
  match r.store.beginBulkLoadFinalize with
  | .error e => r.fail e
  | .ok (c, store) =>
    let r := { r with store }
    if c.lifecycle = .completed then (r, .ended (.ok (.finalizeAccepted c.lifecycle)))
    else
      match r.store.finalizeBulkLoadStep now with
      | .error e => r.fail e
      | .ok (c, store) => ({ r with store }, .ended (.ok (.finalizeAccepted c.lifecycle)))

/-- The completion of an aborted update chunk. -/
def completeAborted (job chunk : Nat) (child : BulkLoadChunkReceipt) (count now : Nat) :
    Router × Flow :=
  r.call (r.store.completeBulkLoadUpdateChild env.toBulkEnv job chunk child.chunkFingerprint count now)
    fun r => (r, .ended (abortAccepted r.store))

/-- `abort_bulk_load` after the rows are settled. -/
def settledAbort (a : UpdateAbort) (now : Nat) (outcomes : List UpdateRowOutcome) : Router × Flow :=
  let recorded := a.child.updatedRowCount.getD 0
  match (settleOutcomes recorded outcomes).abortPrefix with
  | .error e => r.fail e
  | .ok settled =>
    if recorded < settled then
      r.call (r.store.recordBulkLoadUpdateProgress env.toBulkEnv a.job a.chunk
        a.child.chunkFingerprint settled)
        fun r => completeAborted env r a.job a.chunk a.child settled now
    else completeAborted env r a.job a.chunk a.child settled now

/-- `abort_bulk_load` as far as the rows are settled. -/
def settleAbort (a : UpdateAbort) (now : Nat) : Settling → Router × Flow
  | .failed e => r.fail e
  | .reading outcomes ordinal mutationId =>
    (r, .suspended (.settleAbort a outcomes ordinal mutationId))
  | .settled outcomes => settledAbort env r a now outcomes

/-- `abort_bulk_load` at the chunk the job works on. -/
def abortChunk (record : BulkLoadRecord) (chunk now : Nat) : Router × Flow :=
  match r.store.receipt record.mutationId chunk with
  | none => r.fail (.internal "bulk-load abort child row is missing")
  | some child =>
    if child.updatedRowCount.isSome then
      if child.progress.isCompleted then
        completeAborted env r record.mutationId chunk child (child.updatedRowCount.getD 0) now
      else
        match child.resolvedUpdateVertexIds with
        | none => r.fail (.internal "pending update child lacks its admitted row count")
        | some ids =>
          let a : UpdateAbort := ⟨record.mutationId, chunk, child, ids.length⟩
          settleAbort env r a now (settleUpdateRows r.rows chunk []
            (child.updatedRowCount.getD 0) (ids.length - child.updatedRowCount.getD 0))
    else
      match record.bulkParent with
      | .error e => r.fail e
      | .ok c =>
        driveBulkChild env r ⟨record.mutationId, chunk, child.chunkFingerprint, c.target, true⟩

def abortBulkLoad (now : Nat) : Router × Flow :=
  match r.store.beginBulkLoadAbort now with
  | .error e => r.fail e
  | .ok (c, store) =>
    let r := { r with store }
    match c.lifecycle, store.lookup with
    | .abortPending chunk, .ok record => abortChunk env r record chunk now
    | .abortPending _, .error e => r.fail e
    | _, _ => (r, .ended (abortAccepted r.store))

end

/-! ## Tasks resumed -/

/-- The outcome of a row whose journal was read. -/
def readOutcome (g : Graph) (mutationId : Nat) : Reply → Option (Except RouterError UpdateRowOutcome)
  | .journal read => some (classifyJournal (some (g.read mutationId read)))
  | .failed _ => some (classifyJournal none)
  | _ => none

/-- `settle_update_rows` of an append goes on behind the row it has read. -/
def resumeSettleAppend (r : Router) (a : UpdateAppend) (m : Moment)
    (outcomes : List UpdateRowOutcome) (ordinal : Nat) :
    Except RouterError UpdateRowOutcome → Router × Flow
  | .error e => r.fail e
  | .ok outcome =>
    settleAppend env r a m (settleUpdateRows r.rows a.chunk (outcomes ++ [outcome]) (ordinal + 1)
      (a.items.length - (ordinal + 1)))

/-- `settle_update_rows` of an abort goes on behind the row it has read. -/
def resumeSettleAbort (r : Router) (a : UpdateAbort) (now : Nat) (outcomes : List UpdateRowOutcome)
    (ordinal : Nat) : Except RouterError UpdateRowOutcome → Router × Flow
  | .error e => r.fail e
  | .ok outcome =>
    settleAbort env r a now (settleUpdateRows r.rows a.chunk (outcomes ++ [outcome]) (ordinal + 1)
      (a.rowCount - (ordinal + 1)))

/-- A task goes on with a reply; a reply of another kind changes nothing. -/
def resume (g : Graph) (r : Router) (m : Moment) : Task → Reply → Option (Router × Flow)
  | .resolveEndpoints d, .request request => some (admitInsert env r d request)
  | .drive d (.dispatch request), .receipt receipt => some (driveDispatched env r d request receipt)
  | .drive d .project, .done =>
    some (r.call (r.store.recordBulkLoadRetirementPending env.toBulkEnv d.job d.chunk d.fingerprint)
      fun r => driveBulkChild env r d)
  | .drive d .retire, .done =>
    some (r.call (r.store.completeBulkLoadChild env.toBulkEnv d.job d.chunk d.fingerprint m.now)
      fun r => driveBulkChild env r d)
  | .settleAppend a outcomes ordinal mutationId, reply =>
    (readOutcome g mutationId reply).map (resumeSettleAppend env r a m outcomes ordinal)
  | .settleAbort a outcomes ordinal mutationId, reply =>
    (readOutcome g mutationId reply).map (resumeSettleAbort env r a m.now outcomes ordinal)
  | .resolveMatchKeys a committed unresolved, .vertexIds ids =>
    some (admitResolved env r a m committed unresolved ids)
  | .row loop row rest mutationId call, reply =>
    (resumeRow g r loop row mutationId m call reply).map
      (afterRow env loop row rest (runRows env loop m rest))
  | .recover key mutationId .journal, .journal read =>
    match captureRow r key mutationId (g.read mutationId read) m.now with
    | .error e => some (r.fail e)
    | .ok (some count, r) => some (r, .suspended (.recover key mutationId (.project count)))
    | .ok (none, r) => some (r, .ended (.ok .recovered))
  | .recover key mutationId (.project _), .done =>
    match r.recordProjectionAdvanced key mutationId m.now with
    | .error e => some (r.fail e)
    | .ok r => some (r, .ended (.ok .recovered))
  | .resolveEndpoints _, .failed message | .drive _ (.dispatch _), .failed message
  | .drive _ .project, .failed message | .drive _ .retire, .failed message
  | .resolveMatchKeys _ _ _, .failed message | .recover _ _ _, .failed message =>
    some (r.fail (.internal message))
  | _, _ => none

end Commands

/-! ## The system -/

/-- The router, the shards and the tasks that wait. -/
structure System where
  router : Router
  graph : Graph
  tasks : List Task

/-- What can happen next. -/
inductive Event where
  | start (target : BulkLoadTarget)
  | append (chunk : Nat) (fingerprint : Fingerprint)
  | appendUpdates (chunk : Nat) (fingerprint : Fingerprint) (items : List (List UInt8)) (m : Moment)
  | finalize (now : Nat)
  | abort (now : Nat)
  | collect (now : Nat)
  /-- Another mutation takes an id. -/
  | allocate
  | resume (task : Nat) (reply : Reply) (m : Moment)
  /-- A task traps, or is lost with the router's heap. -/
  | lose (task : Nat)
  | deliver (call : Nat) (delivery : Delivery)
  | recover (key : RowKey)
  | evict (key : RowKey) (now : Nat)

/-- The task an event resumes. -/
def Event.resumed : Event → Option Nat
  | .resume task _ _ => some task
  | _ => none

namespace System

def fresh : System := ⟨.fresh, .fresh, []⟩

/-- A command, or a task, has run: a trap takes back what it wrote. -/
def ran (s : System) (tasks : List Task) : Router × Flow → System
  | (_, .ended (.error (.panic _))) => { s with tasks }
  | (router, .ended _) => { s with router, tasks }
  | (router, .suspended task) => { s with router, tasks := tasks ++ [task] }

/-- A call of the store that is a command of its own. -/
def called (s : System) (result : Except RouterError Store) : System :=
  match result with
  | .error _ => s
  | .ok store => { s with router := { s.router with store } }

/-- `recover_mutation_record` of a row. -/
def recoverRow (s : System) (key : RowKey) : System :=
  match s.router.rows key with
  | some record =>
    if record.isTerminal ∨ record.shard.isNone then s
    else { s with tasks := s.tasks ++ [.recover key record.mutationId .journal] }
  | none => s

def step (env : SystemEnv) (s : System) : Event → System
  | .start target => s.called ((s.router.store.startBulkLoadJob target).map Prod.snd)
  | .append chunk fingerprint => s.ran s.tasks (appendBulkLoad env s.router chunk fingerprint)
  | .appendUpdates chunk fingerprint items m =>
    s.ran s.tasks (appendBulkLoadUpdates env s.router chunk fingerprint items m)
  | .finalize now => s.ran s.tasks (finalizeBulkLoad s.router now)
  | .abort now => s.ran s.tasks (abortBulkLoad env s.router now)
  | .collect now => s.called ((s.router.store.bulkLoadReceiptGcStep now).map Prod.snd)
  | .allocate => s.called (s.router.store.allocateMutationId.map Prod.snd)
  | .resume task reply m =>
    match s.tasks[task]? with
    | none => s
    | some waiting =>
      match Bulk.resume env s.graph s.router m waiting reply with
      | none => s
      | some stopped => s.ran (s.tasks.eraseIdx task) stopped
  | .lose task => { s with tasks := s.tasks.eraseIdx task }
  | .deliver call delivery =>
    match s.router.calls[call]? with
    | none => s
    | some sent =>
      { s with
        router := { s.router with calls := s.router.calls.eraseIdx call }
        graph := s.graph.deliver sent delivery }
  | .recover key => s.recoverRow key
  | .evict key now => { s with router := s.router.evict key now }

end System

end Gleaph.Bulk
