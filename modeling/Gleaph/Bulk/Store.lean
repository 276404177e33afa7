import Gleaph.SeqMap
import Gleaph.Bulk.Records

/-!
# Gleaph.Bulk.Store

The router's stable state of a bulk load and its transitions
(`crates/router/src/facade/store/bulk_load.rs`).

A transition reads the parent and the receipt, checks everything and then
writes, so a refused call changes nothing.  The store is that of one client
key: a job that was collected may be followed by another one under the same
key, with an id of its own.  Ids and counters are numbers with the source's
overflow checks.
-/

namespace Gleaph.Bulk

/-! ## The store -/

/-- The mutation counter, the record under the client key, and the receipts of
every job by chunk. -/
structure Store where
  counter : Nat
  record : Option BulkLoadRecord
  receipts : Nat → SeqMap BulkLoadChunkReceipt

namespace Store

/-- A store no job was started in. -/
def fresh : Store := ⟨0, none, fun _ => .empty⟩

section

variable (s : Store)

def receipt (job chunk : Nat) : Option BulkLoadChunkReceipt := (s.receipts job).get chunk

def putReceipt (job chunk : Nat) (receipt : BulkLoadChunkReceipt) : Store :=
  { s with receipts := Function.update s.receipts job ((s.receipts job).insert chunk receipt) }

def putRecord (record : BulkLoadRecord) : Store := { s with record := some record }

/-- The next id of the counter. -/
def nextMutationId : Except RouterError Nat :=
  if s.counter + 1 < 2 ^ 64 then .ok (s.counter + 1) else .error (.idExhausted "mutation_id")

/-- The next id of the counter for a child of a job. -/
def nextChildId (parent : Nat) : Except RouterError Nat :=
  if s.counter + 1 < 2 ^ 64 ∧ s.counter + 1 ≠ parent then .ok (s.counter + 1)
  else .error (.idExhausted "mutation_id")

/-- Another mutation takes an id. -/
def allocateMutationId : Except RouterError (Nat × Store) := do
  let next ← s.nextMutationId
  return (next, { s with counter := next })

def lookup : Except RouterError BulkLoadRecord :=
  match s.record with
  | some record => .ok record
  | none => .error (.notFound "client_mutation_key")

end

inductive BulkLoadStartAdmission where
  | created (mutationId : Nat)
  | replay (record : BulkLoadRecord)
  deriving DecidableEq, Repr

def startBulkLoadJob (s : Store) (target : BulkLoadTarget) :
    Except RouterError (BulkLoadStartAdmission × Store) := do
  target.validate
  match s.record with
  | some record =>
    let c ← record.bulkParent
    if c.receiptGcCursor.isSome then
      .error (.conflict "client_mutation_key expired while bulk-load receipt GC is active")
    else .ok (.replay record, s)
  | none =>
    let mutationId ← s.nextMutationId
    .ok (.created mutationId,
      { s with counter := mutationId, record := some ⟨mutationId, { target }, none⟩ })

/-- The parent a call names, while its receipts are not being collected. -/
def openParent (s : Store) (parent : Nat) (collecting : String) :
    Except RouterError (BulkLoadRecord × BulkLoadCoordinator) := do
  let record ← s.lookup
  if record.mutationId ≠ parent then .error (.conflict "bulk-load parent mutation id mismatch")
  else do
    let c ← record.bulkParent
    if c.receiptGcCursor.isSome then .error (.conflict collecting) else .ok (record, c)

def validateChild (env : BulkEnv) (child : BulkLoadChunkReceipt) : Except RouterError Unit :=
  match child.validate env with
  | .error message => .error (.invalidArgument message)
  | .ok () => .ok ()

/-- The counter, the child and the parent of a new chunk, in one write. -/
def admitChild (s : Store) (record : BulkLoadRecord) (chunk : Nat) (child : BulkLoadChunkReceipt) :
    Except RouterError Store := do
  let c : BulkLoadCoordinator :=
    { record.coordinator with
      lifecycle := .appendPending chunk child.chunkFingerprint child.childMutationId }
  c.validate
  .ok (({ s with counter := child.childMutationId }.putReceipt record.mutationId chunk child).putRecord
    { record with coordinator := c })

def admitBulkLoadChild (env : BulkEnv) (s : Store) (parent chunk : Nat) (fingerprint : Fingerprint)
    (child : BulkLoadChunkReceipt) : Except RouterError (Nat × Store) := do
  let (record, c) ← s.openParent parent
    "client_mutation_key expired while bulk-load receipt GC is active"
  match s.receipt parent chunk with
  | some existing =>
    if existing.chunkFingerprint = fingerprint then .ok (existing.childMutationId, s)
    else .error (.conflict "bulk-load chunk index was already used for a different fingerprint")
  | none =>
    if c.lifecycle ≠ .opened ∨ chunk ≠ c.nextChunkIndex then
      .error (.conflict "bulk-load append is not the next admissible chunk")
    else if child.chunkFingerprint ≠ fingerprint then
      .error (.conflict "bulk-load child fingerprint mismatch")
    else do
      let childId ← s.nextChildId parent
      let child := { child with
        childMutationId := childId, progress := .canonicalPending, publicReceipt := none
        graphReceipt := none, completedAtNs := none }
      validateChild env child
      match child.graphRequest with
      | none => .error (.internal "bulk-load child lacks Graph request")
      | some request =>
        if request.graphId ≠ env.graphId ∨ request.shardId ≠ c.target.shardId ∨
            request.graphCanister ≠ c.target.graphCanister then
          .error (.conflict "bulk-load child request target differs from pinned parent target")
        else do
          let s ← s.admitChild record chunk child
          .ok (childId, s)

inductive BulkLoadUpdateAdmission where
  | granted | alreadyCompleted
  deriving DecidableEq, Repr

/-- The grant of a pending update chunk: only while the job works on it. -/
def grantPending (c : BulkLoadCoordinator) (chunk : Nat) (existing : BulkLoadChunkReceipt) :
    Except RouterError BulkLoadUpdateAdmission :=
  match c.lifecycle with
  | .appendPending active _ child =>
    if active = chunk ∧ existing.childMutationId = child then .ok .granted
    else .error (.conflict "bulk-load append is not the active chunk of this job")
  | .abortPending active =>
    if active = chunk then .ok .granted else .error (.busy "bulk_load.append")
  | _ => .error (.busy "bulk_load.append")

def admitBulkLoadUpdateChild (env : BulkEnv) (s : Store) (parent chunk : Nat)
    (fingerprint : Fingerprint) (resolved : Option (List (List UInt8))) :
    Except RouterError (BulkLoadUpdateAdmission × Store) := do
  let (record, c) ← s.openParent parent
    "client_mutation_key expired while bulk-load receipt GC is active"
  match s.receipt parent chunk with
  | some existing =>
    if existing.chunkFingerprint ≠ fingerprint ∨ existing.updatedRowCount.isNone then
      .error (.conflict "bulk-load chunk index was already used for a different fingerprint")
    else if existing.progress.isCompleted then .ok (.alreadyCompleted, s)
    else if existing.resolvedUpdateVertexIds ≠ resolved then
      .error (.conflict "bulk-load update targets differ from the admitted chunk")
    else do
      let admission ← grantPending c chunk existing
      .ok (admission, s)
  | none =>
    if c.lifecycle ≠ .opened ∨ chunk ≠ c.nextChunkIndex then
      .error (.conflict "bulk-load append is not the next admissible chunk")
    else do
      let childId ← s.nextChildId parent
      let child : BulkLoadChunkReceipt :=
        { chunkFingerprint := fingerprint, childMutationId := childId
          resolvedUpdateVertexIds := resolved, updatedRowCount := some 0 }
      validateChild env child
      let s ← s.admitChild record chunk child
      .ok (.granted, s)

inductive BulkLoadUpdateDispatchGate where
  | opened | settleOnly | closed
  deriving DecidableEq, Repr

def bulkLoadUpdateDispatchGate (s : Store) (parent chunk : Nat) : BulkLoadUpdateDispatchGate :=
  match s.record with
  | none => .closed
  | some record =>
    if record.mutationId ≠ parent then .closed
    else
      match record.bulkParent with
      | .error _ => .closed
      | .ok c =>
        match c.lifecycle with
        | .appendPending active _ _ => if active = chunk then .opened else .closed
        | .abortPending active => if active = chunk then .settleOnly else .closed
        | _ => .closed

/-! ### Children -/

def withBulkChildTransition (env : BulkEnv) (s : Store) (parent chunk : Nat)
    (fingerprint : Fingerprint) (terminalAtNs : Option Nat)
    (transition : BulkLoadChunkReceipt → BulkLoadCoordinator →
      Except RouterError (BulkLoadChunkReceipt × BulkLoadCoordinator)) :
    Except RouterError Store := do
  let (record, c) ← s.openParent parent
    "bulk-load child transition is closed while receipt GC is active"
  match s.receipt parent chunk with
  | none => .error (.internal "bulk-load child receipt row is missing")
  | some child =>
    if child.chunkFingerprint ≠ fingerprint then
      .error (.conflict "bulk-load child fingerprint mismatch")
    else do
      let (child, c) ← transition child c
      validateChild env child
      c.validate
      let record := { record with coordinator := c }
      let record := terminalAtNs.elim record record.markTerminalAtNs
      .ok ((s.putReceipt parent chunk child).putRecord record)

/-- The transition of `record_bulk_load_update_progress`. -/
def updateProgress (updatedRowCount : Nat) (child : BulkLoadChunkReceipt) (c : BulkLoadCoordinator) :
    Except RouterError (BulkLoadChunkReceipt × BulkLoadCoordinator) :=
  match child.updatedRowCount with
  | none => .error (.conflict "bulk-load update progress targets an insert child row")
  | some recorded =>
    let admitted := child.resolvedUpdateVertexIds.elim recorded List.length
    if admitted < updatedRowCount then
      .error (.conflict
        s!"bulk-load update progress {updatedRowCount} exceeds the {admitted} admitted rows")
    else if child.progress ≠ .canonicalPending then
      if updatedRowCount ≤ recorded then .ok (child, c)
      else
        .error
          (.conflict "bulk-load update progress conflicts with the completed chunk receipt")
    else if updatedRowCount ≤ recorded then .ok (child, c)
    else .ok ({ child with updatedRowCount := some updatedRowCount }, c)

def recordBulkLoadUpdateProgress (env : BulkEnv) (s : Store) (parent chunk : Nat)
    (fingerprint : Fingerprint) (updatedRowCount : Nat) : Except RouterError Store :=
  s.withBulkChildTransition env parent chunk fingerprint none (updateProgress updatedRowCount)

/-- One chunk more is completed and the next one awaited. -/
def countCompleted (c : BulkLoadCoordinator) : Except RouterError BulkLoadCoordinator := do
  let completed ← checkedSucc c.completedChunkCount
    (.invalidArgument "bulk-load completed count overflow")
  let next ← checkedSucc c.nextChunkIndex (.invalidArgument "bulk-load chunk index overflow")
  .ok { c with completedChunkCount := completed, nextChunkIndex := next }

/-- A completion of a chunk that is completed already. -/
def repeatCompletion (child : BulkLoadChunkReceipt) (c : BulkLoadCoordinator) :
    Except RouterError (BulkLoadChunkReceipt × BulkLoadCoordinator) :=
  match c.lifecycle with
  | .abortPending _ => do
    let c ← countCompleted c
    .ok (child, { c with lifecycle := .aborted })
  | _ => .ok (child, c)

/-- The job after its active chunk is completed. -/
def leaveChunk (c : BulkLoadCoordinator) : Except RouterError BulkLoadCoordinator :=
  match c.lifecycle with
  | .appendPending .. => .ok { c with lifecycle := .opened }
  | .abortPending _ => .ok { c with lifecycle := .aborted }
  | _ => .error (.conflict "bulk-load child completion has no matching active parent")

/-- The transition of `complete_bulk_load_update_child`. -/
def updateCompletion (updatedRowCount now : Nat) (child : BulkLoadChunkReceipt)
    (c : BulkLoadCoordinator) : Except RouterError (BulkLoadChunkReceipt × BulkLoadCoordinator) :=
  if child.updatedRowCount.isNone then
    .error (.conflict "bulk-load update completion targets an insert child row")
  else if child.progress = .completed then repeatCompletion child c
  else if child.progress ≠ .canonicalPending then .error (.busy "bulk_load.append")
  else do
    let committed ← checkedSucc c.committedChunkCount
      (.invalidArgument "bulk-load committed count overflow")
    let c ← countCompleted { c with committedChunkCount := committed }
    let c ← leaveChunk c
    .ok ({ child with
      progress := .completed, completedAtNs := some now, updatedRowCount := some updatedRowCount
      resolvedUpdateVertexIds := none }, c)

section

variable (env : BulkEnv) (s : Store) (parent chunk : Nat) (fingerprint : Fingerprint)

def completeBulkLoadUpdateChild (updatedRowCount now : Nat) : Except RouterError Store :=
  s.withBulkChildTransition env parent chunk fingerprint (some now)
    (updateCompletion updatedRowCount now)

/-- `checked_add` on the counts of elements. -/
def addCount (a b : Nat) (message : String) : Except RouterError Nat :=
  if a + b < 2 ^ 64 then .ok (a + b) else .error (.invalidArgument message)

/-- The transition of `record_bulk_load_canonical_committed`. -/
def canonicalCommit (graphReceipt : BulkLoadGraphReceipt) (publicReceipt : AtomicInsertReceipt)
    (child : BulkLoadChunkReceipt) (c : BulkLoadCoordinator) :
    Except RouterError (BulkLoadChunkReceipt × BulkLoadCoordinator) :=
  if child.progress ≠ .canonicalPending then .ok (child, c)
  else if child.graphReceipt.isSome ∨ child.publicReceipt.isSome then
    .error (.conflict "bulk-load canonical receipt conflicts with persisted child evidence")
  else do
    let operations ← addCount c.logicalOperationCount publicReceipt.logicalOperationCount
      "bulk-load operation count overflow"
    let vertices ← addCount c.logicalVertexCount publicReceipt.logicalVertexCount
      "bulk-load vertex count overflow"
    let edges ← addCount c.logicalEdgeCount publicReceipt.logicalEdgeCount
      "bulk-load edge count overflow"
    let committed ← checkedSucc c.committedChunkCount
      (.invalidArgument "bulk-load committed count overflow")
    .ok ({ child with
        graphReceipt := some graphReceipt, publicReceipt := some publicReceipt
        progress := .canonicalCommitted },
      { c with
        logicalOperationCount := operations, logicalVertexCount := vertices
        logicalEdgeCount := edges, committedChunkCount := committed })

def recordBulkLoadCanonicalCommitted (graphReceipt : BulkLoadGraphReceipt)
    (publicReceipt : AtomicInsertReceipt) : Except RouterError Store :=
  if !env.graphReceiptValid graphReceipt then .error (.internal "invalid Graph receipt")
  else
    match publicReceipt.validate with
    | .error message => .error (.invalidArgument message)
    | .ok () =>
      s.withBulkChildTransition env parent chunk fingerprint none
        (canonicalCommit graphReceipt publicReceipt)

/-- The transition of `record_bulk_load_projection_pending`. -/
def projectionPending (child : BulkLoadChunkReceipt) (c : BulkLoadCoordinator) :
    Except RouterError (BulkLoadChunkReceipt × BulkLoadCoordinator) :=
  match child.progress with
  | .canonicalPending => .error (.busy "bulk_load.append")
  | .canonicalCommitted => .ok ({ child with progress := .projectionPending }, c)
  | _ => .ok (child, c)

def recordBulkLoadProjectionPending : Except RouterError Store :=
  s.withBulkChildTransition env parent chunk fingerprint none projectionPending

/-- The transition of `record_bulk_load_retirement_pending`. -/
def retirementPending (child : BulkLoadChunkReceipt) (c : BulkLoadCoordinator) :
    Except RouterError (BulkLoadChunkReceipt × BulkLoadCoordinator) :=
  match child.progress with
  | .canonicalPending | .canonicalCommitted => .error (.busy "bulk_load.append")
  | .projectionPending => .ok ({ child with progress := .retirementPending }, c)
  | _ => .ok (child, c)

def recordBulkLoadRetirementPending : Except RouterError Store :=
  s.withBulkChildTransition env parent chunk fingerprint none retirementPending

/-- The transition of `complete_bulk_load_child`. -/
def insertCompletion (now : Nat) (child : BulkLoadChunkReceipt) (c : BulkLoadCoordinator) :
    Except RouterError (BulkLoadChunkReceipt × BulkLoadCoordinator) :=
  if child.progress = .completed then repeatCompletion child c
  else if child.progress ≠ .retirementPending then .error (.busy "bulk_load.append")
  else do
    let c ← countCompleted c
    let c ← leaveChunk c
    .ok ({ child with progress := .completed, completedAtNs := some now, graphRequest := none }, c)

def completeBulkLoadChild (now : Nat) : Except RouterError Store :=
  s.withBulkChildTransition env parent chunk fingerprint (some now) (insertCompletion now)

end

/-! ### Ending a job -/

def beginBulkLoadFinalize (s : Store) : Except RouterError (BulkLoadCoordinator × Store) := do
  let record ← s.lookup
  let c ← record.bulkParent
  if c.receiptGcCursor.isSome then
    .error (.conflict "client_mutation_key expired while bulk-load receipt GC is active")
  else
    match c.lifecycle with
    | .opened =>
      if c.committedChunkCount ≠ c.completedChunkCount then .error (.busy "bulk_load.append")
      else do
        let c := { c with lifecycle := .finalizePending 0 }
        c.validate
        .ok (c, s.putRecord { record with coordinator := c })
    | .finalizePending _ => .ok (c, s)
    | .appendPending .. => .error (.busy "bulk_load.append")
    | .abortPending _ => .error (.busy "bulk_load.abort")
    | .completed => .ok (c, s)
    | .aborted => .error (.conflict "bulk-load job is aborted")
    | .failed reason => .error (.conflict reason)

def beginBulkLoadAbort (s : Store) (now : Nat) : Except RouterError (BulkLoadCoordinator × Store) := do
  let record ← s.lookup
  let c ← record.bulkParent
  if c.receiptGcCursor.isSome then
    .error (.conflict "client_mutation_key expired while bulk-load receipt GC is active")
  else
    match c.lifecycle with
    | .opened =>
      if c.committedChunkCount ≠ c.completedChunkCount ∨
          c.nextChunkIndex ≠ c.completedChunkCount then
        .error (.busy "bulk_load.append")
      else do
        let c := { c with lifecycle := .aborted }
        c.validate
        .ok (c, s.putRecord ({ record with coordinator := c }.markTerminalAtNs now))
    | .appendPending chunk _ _ => do
      let c := { c with lifecycle := .abortPending chunk }
      c.validate
      .ok (c, s.putRecord { record with coordinator := c })
    | .abortPending _ => .ok (c, s)
    | .finalizePending _ | .completed =>
      .error (.conflict "bulk-load abort is not permitted after finalize/completion")
    | .aborted => .ok (c, s)
    | .failed reason => .error (.conflict reason)

def jobReceiptRows (s : Store) (job start limit : Nat) : List (Nat × BulkLoadChunkReceipt) :=
  ((s.receipts job).rows.filter fun row => start ≤ row.1).take limit

def hasJobReceiptAtOrAfter (s : Store) (job start : Nat) : Bool :=
  (s.receipts job).rows.any fun row => start ≤ row.1

/-- The scan of both bounded steps: completed receipts without a gap.  The
steps word their errors differently. -/
def scanCompleted (gap overflow : String) :
    Nat → List (Nat × BulkLoadChunkReceipt) → Except RouterError Nat
  | cursor, [] => .ok cursor
  | cursor, (chunk, receipt) :: rows =>
    if chunk ≠ cursor then .error (.conflict gap)
    else if receipt.progress ≠ .completed then .error (.busy "bulk_load.append")
    else do
      let cursor ← checkedSucc cursor (.conflict overflow)
      scanCompleted gap overflow cursor rows

def bulkLoadFinalizeScanRowsPerStep : Nat := 32

def finalizeBulkLoadStep (s : Store) (now : Nat) :
    Except RouterError (BulkLoadCoordinator × Store) := do
  let record ← s.lookup
  let c ← record.bulkParent
  match c.lifecycle with
  | .finalizePending cursor =>
    let rows := s.jobReceiptRows record.mutationId cursor bulkLoadFinalizeScanRowsPerStep
    let next ← scanCompleted
      "bulk-load finalize receipt range is not a contiguous accepted prefix"
      "bulk-load finalize cursor overflow" cursor rows
    if s.hasJobReceiptAtOrAfter record.mutationId next then do
      let c := { c with lifecycle := .finalizePending next }
      c.validate
      .ok (c, s.putRecord { record with coordinator := c })
    else if c.committedChunkCount ≠ c.completedChunkCount ∨
        c.nextChunkIndex ≠ c.completedChunkCount ∨ next ≠ c.completedChunkCount then
      .error
        (.conflict "bulk-load finalize aggregate counters do not match completed receipts")
    else do
      let c := { c with lifecycle := .completed, receiptGcCursor := none }
      c.validate
      .ok (c, s.putRecord ({ record with coordinator := c }.markTerminalAtNs now))
  | .completed => .ok (c, s)
  | _ => .error (.conflict "bulk-load finalize is not pending")

/-- Seven days. -/
def clientMutationKeyTtlNs : Nat := 7 * 24 * 60 * 60 * 1_000_000_000

def bulkLoadReceiptGcRowsPerStep : Nat := 32

def expiredTerminal (record : BulkLoadRecord) (now : Nat) : Bool :=
  record.isTerminal && record.terminalAtNs.any fun at' => clientMutationKeyTtlNs < now - at'

def removeReceipts (s : Store) (job : Nat) (rows : List (Nat × BulkLoadChunkReceipt)) : Store :=
  let rest := rows.foldl (fun receipts row => receipts.remove row.1) (s.receipts job)
  { s with receipts := Function.update s.receipts job rest }

structure BulkLoadGcStepResult where
  scanned : Nat
  removed : Nat
  done : Bool
  deriving DecidableEq, Repr

def bulkLoadReceiptGcStep (s : Store) (now : Nat) :
    Except RouterError (BulkLoadGcStepResult × Store) :=
  match s.record with
  | none => .ok (⟨0, 0, true⟩, s)
  | some record => do
    let c ← record.bulkParent
    if !expiredTerminal record now then .ok (⟨0, 0, false⟩, s)
    else if c.committedChunkCount ≠ c.completedChunkCount ∨
        c.nextChunkIndex ≠ c.completedChunkCount then
      .error (.conflict "bulk-load receipt GC requires a quiescent completed prefix")
    else do
      let cursor := c.receiptGcCursor.getD 0
      let rows := s.jobReceiptRows record.mutationId cursor bulkLoadReceiptGcRowsPerStep
      let next ← scanCompleted
        "bulk-load receipt GC range is not a contiguous accepted prefix"
        "bulk-load receipt GC cursor overflow" cursor rows
      if rows.isEmpty then
        if s.hasJobReceiptAtOrAfter record.mutationId 0 then do
          let c := { c with receiptGcCursor := some 0 }
          c.validate
          .ok (⟨0, 0, false⟩, s.putRecord { record with coordinator := c })
        else .ok (⟨0, 0, true⟩, { s with record := none })
      else do
        let c := { c with receiptGcCursor := some next }
        c.validate
        .ok (⟨rows.length, rows.length, false⟩,
          (s.removeReceipts record.mutationId rows).putRecord { record with coordinator := c })

end Store

end Gleaph.Bulk
