import Gleaph.Bulk.Store

/-!
# Gleaph.Bulk.Rows

The mutation records of the rows of an update chunk
(`crates/router/src/facade/store/idempotency.rs`,
`crates/router/src/facade/stable/label_stats.rs`) and what they tell about a
row (`crates/router/src/bulk_load.rs`).

A row is one idempotent mutation under a key made of the chunk and the row's
place in it.  Its record is reserved, gets the shard it is sent to, takes over
the count of that shard's journal, and is completed when the label statistics
have caught up.  It names the chunk of the job it was made for.  A row has one
target, so its record has at most one shard.
-/

namespace Gleaph.Bulk

/-! ## Records -/

/-- `update_row_key`, under one client key. -/
structure RowKey where
  chunk : Nat
  ordinal : Nat
  deriving DecidableEq, Repr

structure BulkLoadChunkReceiptKey where
  jobMutationId : Nat
  chunkIndex : Nat
  deriving DecidableEq, Repr

/-- The progress of a `RouterMutationShardV1`. -/
structure RowShard where
  completed : Bool := false
  projectionAdvanced : Bool := false
  rowCount : Nat := 0
  deriving DecidableEq, Repr

/-- The `RouterMutationRecordV1` of a row; `terminal_failure` is only set for
mutations with unique reservations. -/
structure RowRecord where
  mutationId : Nat
  fingerprint : Fingerprint
  chunk : BulkLoadChunkReceiptKey
  routingInProgress : Bool := true
  routingLeaseNs : Option Nat
  shard : Option RowShard := none
  completedRowCount : Option Nat := none
  terminalAtNs : Option Nat := none
  deriving DecidableEq, Repr

inductive MutationLifecyclePhase where
  | routing | canonicalPending | canonicalCommitted | projectionPending | completed | failed
  deriving DecidableEq, Repr

namespace RowRecord

variable (record : RowRecord)

def lifecyclePhase : MutationLifecyclePhase :=
  if record.completedRowCount.isSome then .completed
  else if record.routingInProgress then .routing
  else
    match record.shard with
    | none => .failed
    | some shard =>
      if !shard.completed then .canonicalPending
      else if shard.projectionAdvanced then .completed
      else .canonicalCommitted

def isTerminal : Bool := record.lifecyclePhase = .completed

def markTerminalAtNs (now : Nat) : RowRecord :=
  if record.isTerminal ∧ record.terminalAtNs = none then { record with terminalAtNs := some now }
  else record

def compactCompletedRecord (now : Nat) : RowRecord :=
  { record with shard := none }.markTerminalAtNs now

/-- The record's time is over, counted from its terminal anchor. -/
def expired (now : Nat) : Bool :=
  record.isTerminal && record.terminalAtNs.any fun at' => Store.clientMutationKeyTtlNs < now - at'

end RowRecord

/-- Five minutes. -/
def routingLeaseTtlNs : Nat := 5 * 60 * 1_000_000_000

/-! ## The router -/

/-- A plan sent to the shard of a row, and the chunk of the row's record. -/
structure PlanCall where
  key : RowKey
  chunk : BulkLoadChunkReceiptKey
  mutationId : Nat
  deriving DecidableEq, Repr

/-- The stable state of the router, and the plans it has sent that were not
delivered yet. -/
structure Router where
  store : Store
  rows : RowKey → Option RowRecord
  calls : List PlanCall

namespace Router

def fresh : Router := ⟨.fresh, fun _ => none, []⟩

def putRow (r : Router) (key : RowKey) (record : RowRecord) : Router :=
  { r with rows := Function.update r.rows key (some record) }

def bulkLoadUpdateReplayRequired (s : Store) (chunk : BulkLoadChunkReceiptKey) : Bool :=
  (s.receipt chunk.jobMutationId chunk.chunkIndex).any fun child =>
    child.updatedRowCount.isSome && !child.progress.isCompleted

structure ClientMutationReservation where
  mutationId : Nat
  routingOwner : Bool
  deriving DecidableEq, Repr

section

variable (r : Router) (key : RowKey)

/-- A record that exists already, in `reserve_plan_mutation_at`. -/
def reserveExisting (record : RowRecord) (now : Nat) :
    Except RouterError (ClientMutationReservation × Router) :=
  let leased := { record with routingInProgress := true, routingLeaseNs := some now }
  if record.routingInProgress then
    if record.routingLeaseNs.any fun started => now - started ≤ routingLeaseTtlNs then
      .error (.conflict "client_mutation_key is already in progress; retry later")
    else .ok (⟨record.mutationId, true⟩, r.putRow key leased)
  else if record.shard.isNone ∧ record.completedRowCount.isNone then
    .ok (⟨record.mutationId, true⟩, r.putRow key leased)
  else .ok (⟨record.mutationId, false⟩, r)

/-- `reserve_bulk_load_update_row`.  The eviction of expired records that goes
with a new reservation is an event of its own. -/
def reserveBulkLoadUpdateRow (fingerprint : Fingerprint) (chunk : BulkLoadChunkReceiptKey)
    (now : Nat) : Except RouterError (ClientMutationReservation × Router) :=
  match r.rows key with
  | some record =>
    if record.expired now ∧ !bulkLoadUpdateReplayRequired r.store record.chunk then
      .error (.invalidArgument "client_mutation_key expired; use a new key for a new mutation")
    else if record.fingerprint ≠ fingerprint ∨ record.chunk ≠ chunk then
      .error (.conflict "client_mutation_key was already used for a different request")
    else r.reserveExisting key record now
  | none =>
    if !bulkLoadUpdateReplayRequired r.store chunk then
      .error (.conflict "bulk-load update row requires a pending chunk")
    else do
      let (mutationId, store) ← r.store.allocateMutationId
      .ok (⟨mutationId, true⟩, { r with store }.putRow key
        { mutationId, fingerprint, chunk, routingLeaseNs := some now })

def scalarMutationRecord (mutationId : Nat) : Except RouterError RowRecord :=
  match r.rows key with
  | none => .error (.conflict "scalar mutation record is unavailable")
  | some record =>
    if record.mutationId ≠ mutationId then .error (.conflict "scalar mutation identity changed")
    else .ok record

/-- `router_mutation_completed_row_count`. -/
def completedRowCount : Option Nat :=
  (r.rows key).bind RowRecord.completedRowCount

/-- `record_router_mutation_shards`, with the row's one shard. -/
def recordRouterMutationShards (mutationId : Nat) : Except RouterError Router := do
  let record ← r.scalarMutationRecord key mutationId
  if record.completedRowCount.isSome then
    .error (.conflict "scalar shard writer requires a pristine Scalar payload")
  else if record.shard.isSome then .ok r
  else .ok (r.putRow key { record with routingInProgress := false, shard := some {} })

/-- `abandon_router_mutation_routing_reservation`. -/
def abandonRouting (mutationId : Nat) : Except RouterError Router := do
  let record ← r.scalarMutationRecord key mutationId
  if !record.routingInProgress then .ok r
  else .ok (r.putRow key { record with routingInProgress := false })

end

inductive ScalarDispatchGate where
  | completed (count : Nat) | reconcile | dispatch
  deriving DecidableEq, Repr

def scalarDispatchGate (r : Router) (key : RowKey) (mutationId : Nat) :
    Except RouterError ScalarDispatchGate := do
  let record ← r.scalarMutationRecord key mutationId
  match record.completedRowCount with
  | some count => .ok (.completed count)
  | none =>
    if record.routingInProgress then
      .error (.conflict "scalar dispatch requires a durable shard envelope")
    else
      match record.shard with
      | none => .error .shardNotRegistered
      | some shard =>
        if shard.completed then .ok .reconcile
        else if !bulkLoadUpdateReplayRequired r.store record.chunk then
          .error (.conflict "bulk-load update row no longer permits dispatch")
        else .ok .dispatch

/-- The plan of a row is sent to its shard. -/
def send (r : Router) (key : RowKey) (mutationId : Nat) : Router :=
  match r.rows key with
  | none => r
  | some record => { r with calls := r.calls ++ [⟨key, record.chunk, mutationId⟩] }

/-- A record whose shard has completed and caught up is completed itself. -/
def finishRow (record : RowRecord) (shard : RowShard) (now : Nat) : RowRecord :=
  if shard.completed ∧ shard.projectionAdvanced then
    ({ record with shard := some shard, completedRowCount := some shard.rowCount }.markTerminalAtNs
      now).compactCompletedRecord now
  else { record with shard := some shard }

variable (r : Router) (key : RowKey)

/-- `record_scalar_shard_progress` of `CanonicalCompleted`. -/
def recordCanonicalCompleted (mutationId count now : Nat) : Except RouterError Router := do
  let record ← r.scalarMutationRecord key mutationId
  match record.shard with
  | none =>
    if record.completedRowCount.isSome then .ok r else .error .shardNotRegistered
  | some shard =>
    if shard.completed then
      if shard.rowCount = count then .ok r
      else .error (.conflict "scalar canonical count conflicts with captured outcome")
    else
      .ok (r.putRow key (finishRow record { shard with completed := true, rowCount := count } now))

/-- `record_scalar_shard_progress` of `ProjectionAdvanced`. -/
def recordProjectionAdvanced (mutationId now : Nat) : Except RouterError Router := do
  let record ← r.scalarMutationRecord key mutationId
  match record.shard with
  | none =>
    if record.completedRowCount.isSome then .ok r else .error .shardNotRegistered
  | some shard =>
    if !shard.completed then .error (.conflict "scalar projection requires canonical completion")
    else if shard.projectionAdvanced then .ok r
    else .ok (r.putRow key (finishRow record { shard with projectionAdvanced := true } now))

/-- The eviction of one row's record in `evict_expired_client_mutation_keys`. -/
def evict (now : Nat) : Router :=
  match r.rows key with
  | none => r
  | some record =>
    if record.expired now ∧ !bulkLoadUpdateReplayRequired r.store record.chunk then
      { r with rows := Function.update r.rows key none }
    else r

end Router

/-! ## Outcomes -/

inductive UpdateRowOutcome where
  | notWritten | committed | unresolved | unknown
  deriving DecidableEq, Repr

def appliedTargetOutcome : Nat → Except RouterError UpdateRowOutcome
  | 0 => .ok .notWritten
  | 1 => .ok .committed
  | _ => .error (.internal "exact vertex mutation reported more than one target")

/-- What the router's record tells of a row: an outcome, or that the journal of
the shard has to be read. -/
inductive Classified where
  | known (outcome : Except RouterError UpdateRowOutcome)
  | journal (mutationId : Nat)

/-- The part of `classify_update_row` before it reads a journal. -/
def classifyUpdateRow : Option RowRecord → Classified
  | none => .known (.ok .notWritten)
  | some record =>
    match record.lifecyclePhase with
    | .failed => .known (.ok .notWritten)
    | .canonicalCommitted | .projectionPending | .completed =>
      match record.completedRowCount, record.shard with
      | some count, _ => .known (appliedTargetOutcome count)
      | none, some shard =>
        if shard.completed then .known (appliedTargetOutcome shard.rowCount)
        else .known (.error (.internal "exact vertex mutation lacks its scalar outcome"))
      | none, none =>
        .known (.error (.internal "exact vertex mutation lacks its scalar outcome"))
    | .routing | .canonicalPending =>
      match record.shard with
      | none => .known (.ok .unresolved)
      | some _ => .journal record.mutationId

/-- The rest of `classify_update_row`; `none` is a journal that cannot be
read. -/
def classifyJournal : Option (Option Nat) → Except RouterError UpdateRowOutcome
  | none => .ok .unknown
  | some none => .ok .unresolved
  | some (some count) => appliedTargetOutcome count

/-- `UpdateSettlement`, with the fold's own flag. -/
structure UpdateSettlement where
  committed : Nat
  unresolved : List Nat := []
  unreadable : List Nat := []
  committedAfterGap : Bool := false
  gap : Bool := false
  deriving DecidableEq, Repr

/-- One round of `settle_outcomes`. -/
def UpdateSettlement.add (settlement : UpdateSettlement) (ordinal : Nat) :
    UpdateRowOutcome → UpdateSettlement
  | .committed =>
    if settlement.gap then { settlement with committedAfterGap := true }
    else { settlement with committed := ordinal + 1 }
  | .notWritten => { settlement with gap := true }
  | .unresolved =>
    { settlement with gap := true, unresolved := settlement.unresolved ++ [ordinal] }
  | .unknown => { settlement with gap := true, unreadable := settlement.unreadable ++ [ordinal] }

def settleOutcomes (start : Nat) (outcomes : List UpdateRowOutcome) : UpdateSettlement :=
  (outcomes.zipIdx start).foldl (fun settlement outcome => settlement.add outcome.2 outcome.1)
    { committed := start }

def UpdateSettlement.abortPrefix (settlement : UpdateSettlement) : Except RouterError Nat :=
  if settlement.unresolved ≠ [] ∨ settlement.unreadable ≠ [] then .error (.busy "bulk_load.append")
  else if settlement.committedAfterGap then
    .error
      (.internal "bulk-load abort found a committed update row beyond a non-committed one")
  else .ok settlement.committed

/-- How far `settle_update_rows` has come: it waits for the journal of a row,
or has all outcomes. -/
inductive Settling where
  | reading (outcomes : List UpdateRowOutcome) (ordinal mutationId : Nat)
  | settled (outcomes : List UpdateRowOutcome)
  | failed (error : RouterError)

/-- `settle_update_rows` from `ordinal` on, with `count` rows to go. -/
def settleUpdateRows (rows : RowKey → Option RowRecord) (chunk : Nat)
    (outcomes : List UpdateRowOutcome) (ordinal : Nat) : Nat → Settling
  | 0 => .settled outcomes
  | count + 1 =>
    match classifyUpdateRow (rows ⟨chunk, ordinal⟩) with
    | .known (.error e) => .failed e
    | .known (.ok outcome) => settleUpdateRows rows chunk (outcomes ++ [outcome]) (ordinal + 1) count
    | .journal mutationId => .reading outcomes ordinal mutationId

end Gleaph.Bulk
