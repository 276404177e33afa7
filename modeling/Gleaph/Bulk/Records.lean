import Gleaph.Panic

/-!
# Gleaph.Bulk.Records

The stable records of a bulk load and their checks
(`crates/router/src/facade/stable/bulk_load.rs`,
`crates/router/src/facade/stable/label_stats.rs`).

A job is a parent record under a client key and one receipt for each accepted
chunk.  The parent, the coordinator, counts the chunks and names the one being
worked on.  Every write is checked: `valid_of_validate` and
`progress_of_validate` say what a checked record tells.
-/

namespace Gleaph.Bulk

abbrev Fingerprint := List UInt8

abbrev Principal := List UInt8

def anonymous : Principal := [4]

inductive RouterError where
  | conflict (message : String)
  | busy (operation : String)
  | internal (message : String)
  | invalidArgument (message : String)
  | notFound (name : String)
  | idExhausted (name : String)
  | shardNotRegistered
  /-- A trap; the message is rolled back. -/
  | panic (message : String)
  deriving DecidableEq, Repr

/-- `checked_add(1)` on 32 bits. -/
def checkedSucc (x : Nat) (error : RouterError) : Except RouterError Nat :=
  if x + 1 < 2 ^ 32 then .ok (x + 1) else .error error

/-! ## The parent -/

/-- `BulkLoadTargetV1`. -/
structure BulkLoadTarget where
  shardId : Nat
  graphCanister : Principal
  deriving DecidableEq, Repr

def BulkLoadTarget.validate (target : BulkLoadTarget) : Except RouterError Unit :=
  if target.graphCanister = anonymous then
    .error (.invalidArgument "bulk-load target graph canister must not be anonymous")
  else .ok ()

/-- `BulkLoadLifecycleV1`; the one stage of a pending finalize is left out. -/
inductive BulkLoadLifecycle where
  | opened
  | appendPending (chunkIndex : Nat) (fingerprint : Fingerprint) (childMutationId : Nat)
  | finalizePending (cursor : Nat)
  | abortPending (activeChunk : Nat)
  | completed
  | aborted
  | failed (reason : String)
  deriving DecidableEq, Repr

namespace BulkLoadLifecycle

def isTerminal : BulkLoadLifecycle → Bool
  | completed | aborted | failed _ => true
  | _ => false

/-- The chunk a lifecycle names. -/
def activeChunk : BulkLoadLifecycle → Option Nat
  | appendPending chunk _ _ | abortPending chunk => some chunk
  | _ => none

def validate : BulkLoadLifecycle → Except RouterError Unit
  | appendPending _ _ child =>
    if child = 0 then
      .error (.conflict "bulk-load AppendPending child mutation id must be non-zero")
    else .ok ()
  | failed reason =>
    if reason = "" then .error (.conflict "bulk-load Failed state requires a reason") else .ok ()
  | _ => .ok ()

end BulkLoadLifecycle

/-- `BulkLoadCoordinatorV1`. -/
structure BulkLoadCoordinator where
  target : BulkLoadTarget
  logicalOperationCount : Nat := 0
  logicalVertexCount : Nat := 0
  logicalEdgeCount : Nat := 0
  nextChunkIndex : Nat := 0
  committedChunkCount : Nat := 0
  completedChunkCount : Nat := 0
  lifecycle : BulkLoadLifecycle := .opened
  receiptGcCursor : Option Nat := none
  deriving DecidableEq, Repr

namespace BulkLoadCoordinator

/-- The checks of the lifecycle against the counters. -/
def validateLifecycle (c : BulkLoadCoordinator) : Except RouterError Unit :=
  match c.lifecycle with
  | .finalizePending cursor =>
    if c.nextChunkIndex < cursor then
      .error (.conflict "bulk-load Finalize cursor exceeds accepted chunk prefix")
    else if c.receiptGcCursor.isSome then
      .error (.conflict "bulk-load receipt GC cursor requires terminal lifecycle")
    else .ok ()
  | .abortPending active =>
    if active ≠ c.nextChunkIndex then
      .error (.conflict "bulk-load AbortPending active chunk is not the next accepted index")
    else if c.receiptGcCursor.isSome then
      .error (.conflict "bulk-load receipt GC cursor requires terminal lifecycle")
    else .ok ()
  | .completed | .aborted | .failed _ =>
    if c.receiptGcCursor.isNone ∧ c.committedChunkCount ≠ c.nextChunkIndex then
      .error (.conflict "terminal bulk-load lifecycle requires committed prefix counters")
    else .ok ()
  | .opened | .appendPending .. =>
    if c.receiptGcCursor.isSome then
      .error (.conflict "bulk-load receipt GC cursor requires terminal lifecycle")
    else .ok ()

/-- The checks of the counters. -/
def validateCounts (c : BulkLoadCoordinator) : Except RouterError Unit :=
  if 2 ^ 64 ≤ c.logicalVertexCount + c.logicalEdgeCount then
    .error (.conflict "bulk-load aggregate count overflow")
  else if c.logicalVertexCount + c.logicalEdgeCount ≠ c.logicalOperationCount then
    .error (.conflict "bulk-load aggregate counts must sum to logical operation count")
  else if min (c.nextChunkIndex + 1) (2 ^ 32 - 1) < c.committedChunkCount ∨
      c.committedChunkCount < c.completedChunkCount then
    .error (.conflict "bulk-load aggregate chunk counters are not monotonic")
  else if c.lifecycle.activeChunk.isSome then
    if c.completedChunkCount ≠ c.nextChunkIndex ∨ c.committedChunkCount < c.nextChunkIndex then
      .error (.conflict "bulk-load active-child counters do not describe the accepted prefix")
    else .ok ()
  else if c.committedChunkCount ≠ c.nextChunkIndex ∨ c.completedChunkCount ≠ c.nextChunkIndex then
    .error (.conflict "bulk-load inactive lifecycle counters do not describe a completed prefix")
  else .ok ()

/-- `BulkLoadCoordinatorV1::validate`; the encoding of a coordinator is small. -/
def validate (c : BulkLoadCoordinator) : Except RouterError Unit := do
  c.target.validate
  c.lifecycle.validate
  c.validateCounts
  c.validateLifecycle

/-- What a validated coordinator tells. -/
structure Valid (c : BulkLoadCoordinator) : Prop where
  completed : c.completedChunkCount = c.nextChunkIndex
  committed_le : c.committedChunkCount ≤ c.nextChunkIndex + 1
  committed : c.lifecycle.activeChunk = none → c.committedChunkCount = c.nextChunkIndex
  aborting : ∀ {k}, c.lifecycle = .abortPending k → k = c.nextChunkIndex
  collecting : c.lifecycle.isTerminal = false → c.receiptGcCursor = none

/-- A valid lifecycle aborts at the next chunk only, and only a terminal one has
a collection cursor. -/
theorem validateLifecycle_eq_ok {c : BulkLoadCoordinator} (h : c.validateLifecycle = .ok ()) :
    (∀ {k}, c.lifecycle = .abortPending k → k = c.nextChunkIndex) ∧
      (c.lifecycle.isTerminal = false → c.receiptGcCursor = none) := by
  unfold validateLifecycle at h
  cases hlifecycle : c.lifecycle with
  | opened | appendPending chunk fingerprint child =>
    simp only [hlifecycle] at h
    split_ifs at h with hgc
    exact ⟨by simp, fun _ => by simpa using hgc⟩
  | finalizePending cursor =>
    simp only [hlifecycle] at h
    split_ifs at h with hcursor hgc
    exact ⟨by simp, fun _ => by simpa using hgc⟩
  | abortPending active =>
    simp only [hlifecycle] at h
    split_ifs at h with hactive hgc
    refine ⟨fun hk => ?_, fun _ => by simpa using hgc⟩
    cases hk
    omega
  | completed | aborted | failed reason => exact ⟨by simp, by simp [BulkLoadLifecycle.isTerminal]⟩

/-- What `validate` accepts has every field of `Valid`. -/
theorem valid_of_validate {c : BulkLoadCoordinator} (h : c.validate = .ok ()) : c.Valid := by
  obtain ⟨-, -, h⟩ := bind_inv h
  obtain ⟨-, -, h⟩ := bind_inv h
  obtain ⟨_, hcounts, hlifecycle⟩ := bind_inv h
  obtain ⟨haborting, hcollecting⟩ := validateLifecycle_eq_ok hlifecycle
  unfold validateCounts at hcounts
  split_ifs at hcounts with hoverflow hsum hmonotonic hactive hprefix hprefix'
  · exact ⟨by omega, by omega, fun hnone => by simp [hnone] at hactive, haborting, hcollecting⟩
  · exact ⟨by omega, by omega, fun _ => by omega, haborting, hcollecting⟩

end BulkLoadCoordinator

/-- The router's record of a job. -/
structure BulkLoadRecord where
  mutationId : Nat
  coordinator : BulkLoadCoordinator
  terminalAtNs : Option Nat := none
  deriving DecidableEq, Repr

namespace BulkLoadRecord

section

variable (record : BulkLoadRecord)

def isTerminal : Bool := record.coordinator.lifecycle.isTerminal

/-- Set once, after a terminal transition. -/
def markTerminalAtNs (now : Nat) : BulkLoadRecord :=
  if record.isTerminal ∧ record.terminalAtNs = none then
    { record with terminalAtNs := some now }
  else record

def bulkParent : Except RouterError BulkLoadCoordinator :=
  match record.coordinator.validate with
  | .error _ => .error (.panic "invalid durable bulk-load coordinator")
  | .ok () =>
    if record.isTerminal ≠ record.terminalAtNs.isSome then
      .error (.panic "bulk-load terminal lifecycle and terminal retention anchor disagree")
    else .ok record.coordinator

@[simp] theorem mutationId_markTerminalAtNs (now : Nat) :
    (record.markTerminalAtNs now).mutationId = record.mutationId := by
  unfold markTerminalAtNs
  split <;> rfl

@[simp] theorem coordinator_markTerminalAtNs (now : Nat) :
    (record.markTerminalAtNs now).coordinator = record.coordinator := by
  unfold markTerminalAtNs
  split <;> rfl

end

/-- The coordinator of a parent that is read is the record's, and valid. -/
theorem bulkParent_eq_ok {record : BulkLoadRecord} (h : record.bulkParent = .ok c) :
    c = record.coordinator ∧ c.Valid := by
  unfold bulkParent at h
  split at h
  · cases h
  next hvalid =>
  split_ifs at h
  cases h
  exact ⟨rfl, BulkLoadCoordinator.valid_of_validate hvalid⟩

end BulkLoadRecord

/-! ## Receipts -/

/-- `BulkLoadChunkProgressV1`. -/
inductive BulkLoadChunkProgress where
  | canonicalPending | canonicalCommitted | projectionPending | retirementPending | completed
  deriving DecidableEq, Repr

def BulkLoadChunkProgress.isCompleted : BulkLoadChunkProgress → Bool
  | completed => true
  | _ => false

/-- `BulkLoadGraphRequestV1`: where it goes, and the batch itself. -/
structure BulkLoadGraphRequest where
  graphId : Nat
  shardId : Nat
  graphCanister : Principal
  batch : List UInt8
  deriving DecidableEq, Repr

/-- `BulkLoadGraphReceiptV1`: how many elements were made, and the last label
statistics event. -/
inductive BulkLoadGraphReceipt where
  | vertex (count : Nat) (lastSeq : Option Nat)
  | edge (count : Nat) (lastSeq : Option Nat)
  deriving DecidableEq, Repr

/-- `AtomicInsertReceiptV1`, without the ids of new vertices. -/
structure AtomicInsertReceipt where
  logicalOperationCount : Nat
  logicalVertexCount : Nat
  logicalEdgeCount : Nat
  deriving DecidableEq, Repr

def AtomicInsertReceipt.validate (receipt : AtomicInsertReceipt) : Except String Unit :=
  if 2 ^ 64 ≤ receipt.logicalVertexCount + receipt.logicalEdgeCount then
    .error "atomic insert receipt logical counts overflow"
  else if receipt.logicalVertexCount + receipt.logicalEdgeCount ≠ receipt.logicalOperationCount then
    .error "atomic insert receipt logical counts must sum to logical operation count"
  else .ok ()

/-- `public_receipt`, before its check. -/
def BulkLoadGraphReceipt.toPublic : BulkLoadGraphReceipt → AtomicInsertReceipt
  | vertex count _ => ⟨count, count, 0⟩
  | edge count _ => ⟨count, 0, count⟩

def validatePublicReceiptMatchesGraph (receipt : AtomicInsertReceipt) :
    BulkLoadGraphReceipt → Except String Unit
  | graph@(.edge ..) => do
    receipt.validate
    if receipt ≠ graph.toPublic then
      .error "bulk-load edge public receipt does not match Graph receipt"
    else .ok ()
  | graph@(.vertex ..) => do
    receipt.validate
    if receipt ≠ graph.toPublic then
      .error "bulk-load vertex public receipt does not match Graph receipt"
    else .ok ()

/-- `BulkLoadChunkReceiptRecordV1`.  The fingerprint of the Graph request is
the request's own. -/
structure BulkLoadChunkReceipt where
  chunkFingerprint : Fingerprint
  graphRequest : Option BulkLoadGraphRequest := none
  childMutationId : Nat
  progress : BulkLoadChunkProgress := .canonicalPending
  publicReceipt : Option AtomicInsertReceipt := none
  graphReceipt : Option BulkLoadGraphReceipt := none
  resolvedUpdateVertexIds : Option (List (List UInt8)) := none
  completedAtNs : Option Nat := none
  updatedRowCount : Option Nat := none
  deriving DecidableEq, Repr

/-- The graph of the job, and the checks that read encodings. -/
structure BulkEnv where
  graphId : Nat
  requestValid : BulkLoadGraphRequest → Bool
  graphReceiptValid : BulkLoadGraphReceipt → Bool
  receiptFits : BulkLoadChunkReceipt → Bool

namespace BulkLoadChunkReceipt

variable (env : BulkEnv)

section

variable (receipt : BulkLoadChunkReceipt)

/-- The receipts a chunk past its Graph commit carries. -/
def validateReceipts (noGraph noPublic : String) : Except String Unit :=
  match receipt.graphReceipt, receipt.publicReceipt with
  | none, _ => .error noGraph
  | some graph, none =>
    if env.graphReceiptValid graph then .error noPublic else .error "invalid Graph receipt"
  | some graph, some receipt =>
    if env.graphReceiptValid graph then validatePublicReceiptMatchesGraph receipt graph
    else .error "invalid Graph receipt"

/-- The checks of a receipt by its progress. -/
def validateProgress : Except String Unit :=
  match receipt.progress with
  | .canonicalPending =>
    if receipt.updatedRowCount.isSome then
      if receipt.graphRequest.isSome ∨ receipt.publicReceipt.isSome ∨
          receipt.graphReceipt.isSome ∨ receipt.completedAtNs.isSome then
        .error "bulk-load update CanonicalPending row must not carry a request, receipt, or completion time"
      else .ok ()
    else if receipt.graphRequest.isNone then
      .error "bulk-load CanonicalPending row must retain the Graph request"
    else if receipt.publicReceipt.isSome ∨ receipt.graphReceipt.isSome ∨
        receipt.completedAtNs.isSome then
      .error "bulk-load CanonicalPending row must not carry a receipt or completion time"
    else .ok ()
  | .canonicalCommitted | .projectionPending | .retirementPending =>
    if receipt.updatedRowCount.isSome then
      .error "bulk-load update row must never enter the ordered-batch progress states"
    else if receipt.graphRequest.isNone then
      .error "bulk-load non-terminal row must retain the Graph request for replay"
    else do
      receipt.validateReceipts env "bulk-load progress requires Graph receipt"
        "bulk-load progress requires public receipt"
      if receipt.completedAtNs.isSome then
        .error "non-terminal bulk-load row must not have completion time"
      else .ok ()
  | .completed =>
    if receipt.graphRequest.isSome then
      .error "completed bulk-load row must be compacted (Graph request removed)"
    else if receipt.updatedRowCount.isSome then
      if receipt.resolvedUpdateVertexIds.isSome then
        .error "completed bulk-load update row must compact its update payload"
      else if receipt.publicReceipt.isSome ∨ receipt.graphReceipt.isSome then
        .error "completed bulk-load update row must not carry insert receipts"
      else if receipt.completedAtNs.isNone then
        .error "completed bulk-load update row requires completion time"
      else .ok ()
    else do
      receipt.validateReceipts env "completed bulk-load row requires Graph receipt"
        "completed bulk-load row requires public receipt"
      if receipt.completedAtNs.isNone then
        .error "completed bulk-load row requires completion time"
      else .ok ()

def validate : Except String Unit := do
  if receipt.graphRequest.any fun request => !env.requestValid request then
    .error "bulk-load Graph request fingerprint mismatch"
  else if receipt.childMutationId = 0 then
    .error "bulk-load child mutation id must be non-zero"
  else do
    receipt.validateProgress env
    -- A completed update row is accepted before its size is looked at.
    if receipt.progress = .completed ∧ receipt.updatedRowCount.isSome then .ok ()
    else if env.receiptFits receipt then .ok ()
    else .error "bulk-load chunk receipt exceeds the safe payload bound"

end

/-- The progress of an update chunk is pending or completed. -/
theorem progress_of_validate {receipt : BulkLoadChunkReceipt} (h : receipt.validate env = .ok ())
    (hupdate : receipt.updatedRowCount.isSome) :
    receipt.progress = .canonicalPending ∨ receipt.progress = .completed := by
  unfold validate at h
  split_ifs at h
  all_goals
    obtain ⟨_, hprogress, -⟩ := bind_inv h
    unfold validateProgress at hprogress
    cases hp : receipt.progress <;> simp_all

end BulkLoadChunkReceipt

end Gleaph.Bulk
