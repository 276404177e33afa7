import Gleaph.SeqMap

/-!
# Gleaph.Derived.Store

The durable queues of derived index work and the floor over them.

A shard keeps two queues of index work: the outbox, filled by a mutation when
it commits, and the repair journal, filled when a delivery fails.  Both are
keyed by sequence numbers (`SeqMap`).  Beside them stands the pending floor:
the set of all rows with ordinary work of a tracked mutation.  Every change of
a queue changes the floor in the same step, and `FloorExact` says that the two
agree.

* `append_spec`, `removeAll_spec`, `applyVectorOutcome_spec` — what the
  operations do to the rows;
* `FloorExact` and its lemmas — no operation traps on the floor, and all keep
  it exact.
-/

namespace Gleaph

open List

/-! ## Operations and rows -/

inductive IndexMaintenancePhase where
  | building
  | sealing
  | active
deriving DecidableEq

def IndexMaintenancePhase.isActive : IndexMaintenancePhase → Bool
  | .active => true
  | _ => false

structure VectorEmbeddingSyncOp where
  indexId : Nat
  embeddingNameId : Nat
  vertexId : Nat
  mutationId : Nat
  bytes : List UInt8
  remove : Bool
deriving DecidableEq

/-- A posting to be brought to the index; `remove = false` is an insert. -/
inductive RepairPostingOp where
  | vertexProperty (physicalIndexId catalogEpoch : Nat) (phase : IndexMaintenancePhase)
      (remove : Bool) (propertyId : Nat) (payloadBytes : List UInt8) (vertexId : Nat)
  | edgeProperty (physicalIndexId catalogEpoch : Nat) (phase : IndexMaintenancePhase)
      (remove : Bool) (propertyId : Nat) (payloadBytes : List UInt8)
      (labelId ownerVertexId slotIndex : Nat)
  | label (remove : Bool) (labelId vertexId : Nat)
  | vectorEmbedding (op : VectorEmbeddingSyncOp)
deriving DecidableEq

inductive IndexBuildSubject where
  | vertex (shardId vertexId : Nat)
  | edge (shardId ownerVertexId labelId slotIndex : Nat)
deriving DecidableEq

structure IndexBuildDmlRequest where
  physicalIndexId : Nat
  catalogEpoch : Nat
  shardSequence : Nat
  subject : IndexBuildSubject
  removals : List (List UInt8)
  insertions : List (List UInt8)
deriving DecidableEq

/-- An operation of either queue; build envelopes are in the outbox only. -/
inductive DurableOp where
  | ordinary (op : RepairPostingOp)
  | buildDml (request : IndexBuildDmlRequest)
deriving DecidableEq

namespace DurableOp

def isOrdinary : DurableOp → Bool
  | .ordinary _ => true
  | .buildDml _ => false

def isVector : DurableOp → Bool
  | .ordinary (.vectorEmbedding _) => true
  | _ => false

/-- A property or label posting. -/
def isPosting : DurableOp → Bool
  | .ordinary (.vectorEmbedding _) => false
  | .ordinary _ => true
  | .buildDml _ => false

end DurableOp

structure RepairJournalEntry where
  mutationId : Nat
  op : RepairPostingOp
deriving DecidableEq

structure DerivedIndexOutboxEntry where
  mutationId : Nat
  op : DurableOp
deriving DecidableEq

inductive DerivedIndexQuarantineReason where
  | indexDefinitionTablePressure
  | subjectTablePressure
deriving DecidableEq

inductive DerivedIndexOutboxState where
  | pending (entry : DerivedIndexOutboxEntry)
  | quarantined (entry : DerivedIndexOutboxEntry) (reason : DerivedIndexQuarantineReason)
deriving DecidableEq

/-- Which of the two queues, also as the owner of a floor key. -/
inductive DurableQueue where
  | repairJournal
  | derivedIndexOutbox
deriving DecidableEq

/-- The name of a queue in its panics. -/
def DurableQueue.what : DurableQueue → String
  | .repairJournal => "repair journal"
  | .derivedIndexOutbox => "derived-index outbox"

/-- A stored row of either queue. -/
inductive DurableRow where
  | repairJournal (entry : RepairJournalEntry)
  | derivedIndexOutbox (state : DerivedIndexOutboxState)
deriving DecidableEq

namespace DurableRow

def mutationId : DurableRow → Nat
  | .repairJournal entry => entry.mutationId
  | .derivedIndexOutbox (.pending entry) => entry.mutationId
  | .derivedIndexOutbox (.quarantined entry _) => entry.mutationId

def op : DurableRow → DurableOp
  | .repairJournal entry => .ordinary entry.op
  | .derivedIndexOutbox (.pending entry) => entry.op
  | .derivedIndexOutbox (.quarantined entry _) => entry.op

def isPending : DurableRow → Bool
  | .derivedIndexOutbox (.quarantined _ _) => false
  | _ => true

variable (reason : DerivedIndexQuarantineReason)

/-- The outbox row set aside after a terminal refusal. -/
def quarantine : DurableRow → DurableRow
  | .derivedIndexOutbox (.pending entry) => .derivedIndexOutbox (.quarantined entry reason)
  | row => row

@[simp] theorem mutationId_quarantine (row : DurableRow) :
    (row.quarantine reason).mutationId = row.mutationId := by
  rcases row with _ | _ | _ <;> rfl

@[simp] theorem op_quarantine (row : DurableRow) : (row.quarantine reason).op = row.op := by
  rcases row with _ | _ | _ <;> rfl

end DurableRow

/-! ## The floor -/

/-- One row of tracked work; an untracked row has no key. -/
structure IndexPendingFloorKey where
  mutationId : Nat
  owner : DurableQueue
  sourceSequence : Nat
  tracked : mutationId ≠ 0
deriving DecidableEq

/-- The key of a row: ordinary work of a mutation with an id. -/
def trackedFloorKey (owner : DurableQueue) (sequence : Nat) (row : DurableRow) :
    Option IndexPendingFloorKey :=
  if h : row.mutationId = 0 ∨ !row.op.isOrdinary then none
  else some ⟨row.mutationId, owner, sequence, fun h0 => h (.inl h0)⟩

/-- Only ordinary rows are tracked, under their owner, number and mutation. -/
theorem trackedFloorKey_eq_some {sequence : Nat} :
    trackedFloorKey owner sequence row = some key ↔
      row.op.isOrdinary ∧ key.owner = owner ∧ key.sourceSequence = sequence ∧
        key.mutationId = row.mutationId := by
  obtain ⟨mutationId, owner', sequence', tracked⟩ := key
  unfold trackedFloorKey
  split
  next h =>
    constructor
    · intro hsome
      cases hsome
    rintro ⟨hord, -, -, hid⟩
    simp only at hid
    simp_all
  next h =>
    simp only [Option.some.injEq, IndexPendingFloorKey.mk.injEq]
    have hord : row.op.isOrdinary := by simpa using fun h' => h (.inr h')
    simp only [hord, true_and]
    tauto

/-- The smallest mutation id with a key. -/
def minMutationId (floor : Finset IndexPendingFloorKey) : Option Nat :=
  (floor.image (·.mutationId)).min

/-! ## The store -/

/-- The two queues and the floor over them. -/
structure DerivedIndexStore where
  federationConfigured : Bool
  queues : DurableQueue → SeqMap DurableRow
  floor : Finset IndexPendingFloorKey

namespace DerivedIndexStore

variable {store store' : DerivedIndexStore} {q : DurableQueue}

/-- A federated shard with nothing queued. -/
def fresh : DerivedIndexStore := ⟨true, fun _ => .empty, ∅⟩

def rows (store : DerivedIndexStore) (q : DurableQueue) : List (Nat × DurableRow) :=
  (store.queues q).rows

def setQueue (store : DerivedIndexStore) (q : DurableQueue) (m : SeqMap DurableRow) :
    DerivedIndexStore :=
  { store with queues := fun q' => if q' = q then m else store.queues q' }

@[simp] theorem rows_setQueue_self (m : SeqMap DurableRow) :
    (store.setQueue q m).rows q = m.rows := by
  simp [rows, setQueue]

@[simp] theorem rows_setQueue_of_ne (h : q' ≠ q) (m : SeqMap DurableRow) :
    (store.setQueue q m).rows q' = store.rows q' := by
  simp [rows, setQueue, h]

@[simp] theorem floor_setQueue (m : SeqMap DurableRow) :
    (store.setQueue q m).floor = store.floor := rfl

def indexPendingMinMutationId (store : DerivedIndexStore) : Option Nat := minMutationId store.floor

def floorKeys (q : DurableQueue) (rows : List (Nat × DurableRow)) : List IndexPendingFloorKey :=
  rows.filterMap fun row => trackedFloorKey q row.1 row.2

/-- Append rows in order: number them, check that their floor keys are new,
insert both.  `what` names the append in its panic. -/
def append (q : DurableQueue) (what : String) (store : DerivedIndexStore)
    (entries : List DurableRow) : Except String DerivedIndexStore :=
  match (store.queues q).prepare q.what entries with
  | .error error => .error s!"prevalidate {what} append: {error}"
  | .ok rows =>
    let keys := floorKeys q rows
    if keys.any (· ∈ store.floor) then
      .error "index pending floor source identity already exists"
    else do
      let m ← (store.queues q).insertAll q.what rows
      .ok { store.setQueue q m with floor := keys.foldl (fun floor key => insert key floor) store.floor }

section

variable (store : DerivedIndexStore) (mutationId : Nat)

def repairJournalAppend (ops : List RepairPostingOp) : Except String DerivedIndexStore :=
  store.append .repairJournal "repair journal" (ops.map fun op => .repairJournal ⟨mutationId, op⟩)

def derivedIndexOutboxAppend (ops : List RepairPostingOp) : Except String DerivedIndexStore :=
  store.append .derivedIndexOutbox "derived-index outbox"
    (ops.map fun op => .derivedIndexOutbox (.pending ⟨mutationId, .ordinary op⟩))

def derivedIndexBuildOutboxAppend (requests : List IndexBuildDmlRequest) :
    Except String DerivedIndexStore :=
  store.append .derivedIndexOutbox "derived-index build outbox"
    (requests.map fun request => .derivedIndexOutbox (.pending ⟨mutationId, .buildDml request⟩))

end

/-- Append postings to the queue they belong to. -/
def appendTo (q : DurableQueue) (store : DerivedIndexStore) (mutationId : Nat)
    (ops : List RepairPostingOp) : Except String DerivedIndexStore :=
  match q with
  | .repairJournal => store.repairJournalAppend mutationId ops
  | .derivedIndexOutbox => store.derivedIndexOutboxAppend mutationId ops

/-- Remove the row under a number, whatever row that is, and its floor key; a
number without a row is passed over. -/
def removeFromQueue (q : DurableQueue) (store : DerivedIndexStore) (sequence : Nat) :
    Except String DerivedIndexStore :=
  match (store.queues q).get sequence with
  | none => .ok store
  | some row =>
    match trackedFloorKey q sequence row with
    | some key =>
      if key ∈ store.floor then
        .ok { store.setQueue q ((store.queues q).remove sequence) with
          floor := store.floor.erase key }
      else .error "index pending floor source identity is missing"
    | none => .ok (store.setQueue q ((store.queues q).remove sequence))

/-- Remove several rows, one after the other. -/
def removeAll (q : DurableQueue) (store : DerivedIndexStore) :
    List Nat → Except String DerivedIndexStore
  | [] => .ok store
  | sequence :: sequences => do
    let store ← store.removeFromQueue q sequence
    store.removeAll q sequences

/-- The oldest rows that await delivery; rows set aside are passed over. -/
def peek (q : DurableQueue) (store : DerivedIndexStore) (limit : Nat) : List (Nat × DurableRow) :=
  ((store.rows q).filter fun row => row.2.isPending).take limit

/-- All rows that await delivery, as the drain reads them. -/
def peekQueue (q : DurableQueue) (store : DerivedIndexStore) : List (Nat × DurableOp) :=
  ((store.rows q).filter fun row => row.2.isPending).map fun row => (row.1, row.2.op)

end DerivedIndexStore

/-! ## Vector outcomes -/

inductive VectorSyncBatchOutcome where
  | progress (applied : Nat)
  | terminal (applied failedIndex : Nat) (error : DerivedIndexQuarantineReason)
deriving DecidableEq

namespace VectorSyncBatchOutcome

def applied : VectorSyncBatchOutcome → Nat
  | .progress applied => applied
  | .terminal applied _ _ => applied

def isTerminal : VectorSyncBatchOutcome → Bool
  | .progress _ => false
  | .terminal _ _ _ => true

def validate (operationCount : Nat) : VectorSyncBatchOutcome → Except String Unit
  | .progress applied =>
    if applied ≤ operationCount then .ok ()
    else .error "vector sync batch progress exceeds operation count"
  | .terminal applied failedIndex _ =>
    if applied = failedIndex ∧ applied < operationCount then .ok ()
    else .error
      "vector sync batch terminal requires failed_index == applied < operation_count"

end VectorSyncBatchOutcome

namespace DerivedIndexStore

/-- Set aside the row under a number. -/
def quarantineRow (store : DerivedIndexStore) (sequence : Nat) (row : DurableRow)
    (reason : DerivedIndexQuarantineReason) : DerivedIndexStore :=
  store.setQueue .derivedIndexOutbox
    ((store.queues .derivedIndexOutbox).insert sequence (row.quarantine reason))

/-- Acknowledge an outcome for the submitted rows: they have to be the vector
rows at the front of the outbox still. -/
def applyVectorOutcome (store : DerivedIndexStore) (submitted : List (Nat × DurableRow))
    (outcome : VectorSyncBatchOutcome) : Except String DerivedIndexStore := do
  outcome.validate submitted.length
  if submitted.isEmpty || submitted.any (fun row => !row.2.op.isVector) then
    .error "vector outcome requires a nonempty vector outbox prefix"
  else if store.peek .derivedIndexOutbox submitted.length ≠ submitted then
    .error "submitted vector entries are not the current pending outbox prefix"
  else do
    let store ← store.removeAll .derivedIndexOutbox
      ((submitted.take outcome.applied).map (·.1))
    match outcome with
    | .progress _ => .ok store
    | .terminal _ failedIndex reason =>
      match submitted[failedIndex]? with
      | some (sequence, row) => .ok (store.quarantineRow sequence row reason)
      | none => .ok store

end DerivedIndexStore

namespace DerivedIndexStore

variable {store store' : DerivedIndexStore} {q : DurableQueue}

/-! ## What the operations do to the rows -/

/-- Inserting keys in turn adds them all. -/
theorem mem_foldl_insert {keys : List IndexPendingFloorKey} {floor : Finset IndexPendingFloorKey} :
    key ∈ keys.foldl (fun floor key => insert key floor) floor ↔ key ∈ keys ∨ key ∈ floor := by
  induction keys generalizing floor with
  | nil => simp
  | cons head keys ih =>
    rw [foldl_cons, ih, Finset.mem_insert, mem_cons]
    tauto

/-- New rows stand at the end, under numbers greater than all in the queue. -/
theorem append_spec {entries : List DurableRow} (h : store.append q what entries = .ok store') :
    ∃ new, store'.rows q = store.rows q ++ new ∧ new.map (·.2) = entries ∧
      (∀ old ∈ store.rows q, ∀ row ∈ new, old.1 < row.1) ∧
      (∀ row ∈ new, ∃ next, (store.queues q).nextSeq q.what = .ok next ∧ next ≤ row.1) ∧
      (∀ q', q' ≠ q → store'.rows q' = store.rows q') ∧
      store'.federationConfigured = store.federationConfigured ∧
      ∀ key, key ∈ store'.floor ↔ key ∈ floorKeys q new ∨ key ∈ store.floor := by
  unfold append at h
  cases hprepare : (store.queues q).prepare q.what entries with
  | error error => simp [hprepare] at h
  | ok new =>
    simp only [hprepare] at h
    split at h
    · cases h
    obtain ⟨m, hm, h⟩ := bind_inv h
    cases h
    obtain ⟨hentries, hsorted, hbehind⟩ := SeqMap.prepare_spec hprepare
    obtain ⟨m', hm', hrows⟩ := SeqMap.insertAll_rows hsorted hbehind
    obtain rfl : m' = m := Except.ok.inj (hm'.symm.trans hm)
    refine ⟨new, ?_, hentries, hbehind, fun row => SeqMap.nextSeq_le_of_prepare hprepare, ?_, rfl,
      fun key => mem_foldl_insert⟩
    · simpa [rows, setQueue] using hrows
    · intro q' hq'
      simp [rows, setQueue, hq']

variable {sequence : Nat} {submitted : List (Nat × DurableRow)}
  {reason : DerivedIndexQuarantineReason} {outcome : VectorSyncBatchOutcome}

/-- Removal takes the row under the number away, whatever row that is. -/
theorem removeFromQueue_rows (h : store.removeFromQueue q sequence = .ok store') :
    store'.rows q = (store.rows q).filter (fun row => row.1 ≠ sequence) ∧
      (∀ q', q' ≠ q → store'.rows q' = store.rows q') ∧
      store'.federationConfigured = store.federationConfigured := by
  unfold removeFromQueue at h
  cases hget : (store.queues q).get sequence with
  | none =>
    rw [hget] at h
    cases h
    refine ⟨(filter_eq_self.mpr fun row hrow => ?_).symm, fun _ _ => rfl, rfl⟩
    have hnone := SeqMap.get_eq_none.mp hget row.2
    simp only [decide_eq_true_eq]
    rintro rfl
    exact hnone hrow
  | some row =>
    have hrow : ∀ floor, ({ store.setQueue q ((store.queues q).remove sequence) with
        floor := floor } : DerivedIndexStore).rows q =
          (store.rows q).filter fun row => row.1 ≠ sequence := by
      intro floor
      simp [rows, setQueue, SeqMap.remove]
    have hne : ∀ floor, ∀ q', q' ≠ q →
        ({ store.setQueue q ((store.queues q).remove sequence) with
          floor := floor } : DerivedIndexStore).rows q' = store.rows q' := by
      intro floor q' hq'
      simp [rows, setQueue, hq']
    simp only [hget] at h
    split at h
    · split at h
      · cases h
        exact ⟨hrow _, hne _, rfl⟩
      · cases h
    · cases h
      exact ⟨hrow store.floor, hne store.floor, rfl⟩

/-- Removal takes the named rows out of one queue and touches nothing else. -/
theorem removeAll_rows (h : store.removeAll q sequences = .ok store') :
    store'.rows q = (store.rows q).filter (fun row => row.1 ∉ sequences) ∧
      (∀ q', q' ≠ q → store'.rows q' = store.rows q') ∧
      store'.federationConfigured = store.federationConfigured := by
  induction sequences generalizing store with
  | nil =>
    cases h
    simp
  | cons sequence sequences ih =>
    obtain ⟨mid, hmid, h⟩ := bind_inv h
    obtain ⟨hrows, hother, hfed⟩ := removeFromQueue_rows hmid
    obtain ⟨hrows', hother', hfed'⟩ := ih h
    refine ⟨?_, fun q' hq' => (hother' q' hq').trans (hother q' hq'), hfed'.trans hfed⟩
    rw [hrows', hrows, filter_filter]
    refine filter_congr fun row _ => ?_
    simp [Bool.and_comm]

/-- A row of the queue was a row before, with the same work under the same
mutation. -/
def Inherits (store store' : DerivedIndexStore) (q : DurableQueue) : Prop :=
  ∀ row' ∈ store'.rows q, ∃ row ∈ store.rows q, row.1 = row'.1 ∧ row.2.op = row'.2.op ∧
    row.2.mutationId = row'.2.mutationId

/-- A queue that was not touched. -/
theorem Inherits.refl (store : DerivedIndexStore) (q : DurableQueue) : Inherits store store q :=
  fun row hrow => ⟨row, hrow, rfl, rfl, rfl⟩

/-- A queue with the same rows. -/
theorem Inherits.of_eq (h : store'.rows q = store.rows q) : Inherits store store' q := by
  intro row hrow
  exact ⟨row, h ▸ hrow, rfl, rfl, rfl⟩

/-- A queue that rows were removed from. -/
theorem inherits_of_removeAll (h : store.removeAll q sequences = .ok store') :
    Inherits store store' q := by
  intro row hrow
  rw [(removeAll_rows h).1] at hrow
  exact ⟨row, (mem_filter.mp hrow).1, rfl, rfl, rfl⟩

/-- The rows with a property or label posting, in order. -/
def postingRows (store : DerivedIndexStore) (q : DurableQueue) : List (Nat × DurableRow) :=
  (store.rows q).filter fun row => row.2.op.isPosting

/-- A vector row is no posting. -/
theorem isPosting_of_isVector {op : DurableOp} (h : op.isVector) : op.isPosting = false := by
  rcases op with (_ | _ | _ | _) | _ <;> first | rfl | cases h

/-- The rows a vector outcome names are vector rows of the outbox. -/
theorem vector_of_peek (hvector : ∀ row ∈ submitted, row.2.op.isVector)
    (hpeek : store.peek .derivedIndexOutbox limit = submitted)
    (hrow : row ∈ store.rows .derivedIndexOutbox) (hsub : row.1 ∈ submitted.map (·.1)) :
    row ∈ submitted ∧ row.2.op.isVector := by
  obtain ⟨sub, hsub, hkey⟩ := mem_map.mp hsub
  have hmem : sub ∈ store.rows .derivedIndexOutbox := by
    rw [← hpeek] at hsub
    exact (mem_filter.mp (mem_of_mem_take hsub)).1
  have hmem : (row.1, sub.2) ∈ store.rows .derivedIndexOutbox := by
    rw [← hkey]
    exact hmem
  have : row = sub := Prod.ext hkey.symm (SeqMap.row_unique hrow hmem)
  exact ⟨this ▸ hsub, this ▸ hvector sub hsub⟩

/-- What is taken from the front of a sorted list stands before the rest. -/
theorem lt_of_mem_take {rows : List (Nat × DurableRow)} (h : rows.Pairwise fun x y => x.1 < y.1)
    (hrow : rows[n]? = some row) (hrow' : row' ∈ rows.take n) : row'.1 < row.1 := by
  rw [← take_append_drop n rows] at h
  refine (pairwise_append.mp h).2.2 row' hrow' row ?_
  refine mem_iff_getElem?.mpr ⟨0, ?_⟩
  rw [getElem?_drop, Nat.add_zero, hrow]

/-- What an accepted outcome does: the applied rows are removed, and a refused
one, which stands behind them, is set aside. -/
theorem applyVectorOutcome_cases (h : store.applyVectorOutcome submitted outcome = .ok store') :
    (∀ row ∈ submitted, row.2.op.isVector) ∧
      (store.peek .derivedIndexOutbox submitted.length = submitted) ∧
      ∃ mid, store.removeAll .derivedIndexOutbox
          ((submitted.take outcome.applied).map (·.1)) = .ok mid ∧
        (store' = mid ∨ ∃ sequence row reason, (sequence, row) ∈ mid.rows .derivedIndexOutbox ∧
          row.op.isVector ∧ store' = mid.quarantineRow sequence row reason) := by
  obtain ⟨u, hvalid, h⟩ := bind_inv h
  split at h
  · cases h
  next hvector =>
    have hvector : ∀ row ∈ submitted, row.2.op.isVector := by
      intro row hrow
      by_contra hnot
      simp only [Bool.or_eq_true, any_eq_true, not_or, not_exists, not_and] at hvector
      exact hvector.2 row hrow (by simpa using hnot)
    split at h
    · cases h
    next hpeek =>
      have hpeek : store.peek .derivedIndexOutbox submitted.length = submitted := by
        simpa using hpeek
      obtain ⟨mid, hmid, h⟩ := bind_inv h
      refine ⟨hvector, hpeek, mid, hmid, ?_⟩
      cases outcome with
      | progress applied => exact .inl (Except.ok.inj h).symm
      | terminal applied failedIndex reason =>
        simp only [VectorSyncBatchOutcome.validate] at hvalid
        split_ifs at hvalid with heq
        obtain rfl := heq.1
        simp only at h
        split at h
        · rename_i sequence row hfailed
          have hmem : (sequence, row) ∈ submitted := mem_of_getElem? hfailed
          refine .inr ⟨sequence, row, reason, ?_, hvector _ hmem, (Except.ok.inj h).symm⟩
          rw [(removeAll_rows hmid).1]
          have hstored : (sequence, row) ∈ store.rows .derivedIndexOutbox := by
            rw [← hpeek] at hmem
            exact (mem_filter.mp (mem_of_mem_take hmem)).1
          refine mem_filter.mpr ⟨hstored, ?_⟩
          have hsorted : submitted.Pairwise fun x y => x.1 < y.1 :=
            hpeek ▸ ((store.queues _).sorted.filter _).sublist (take_sublist _ _)
          simp only [decide_eq_true_eq, mem_map, not_exists, not_and]
          intro row' hrow' heq
          exact absurd (lt_of_mem_take hsorted hfailed hrow') (by simp [heq])
        · exact .inl (Except.ok.inj h).symm

/-- A vector outcome leaves the postings, and all other rows are inherited. -/
theorem applyVectorOutcome_spec (h : store.applyVectorOutcome submitted outcome = .ok store') :
    store'.postingRows .derivedIndexOutbox = store.postingRows .derivedIndexOutbox ∧
      Inherits store store' .derivedIndexOutbox ∧
      (∀ q', q' ≠ .derivedIndexOutbox → store'.rows q' = store.rows q') ∧
      store'.federationConfigured = store.federationConfigured := by
  obtain ⟨hvector, hpeek, mid, hmid, hstore'⟩ := applyVectorOutcome_cases h
  obtain ⟨hrows, hother, hfed⟩ := removeAll_rows hmid
  have hpostings : mid.postingRows .derivedIndexOutbox = store.postingRows .derivedIndexOutbox := by
    unfold postingRows
    rw [hrows, filter_filter]
    refine filter_congr fun row hrow => ?_
    by_cases hsub : row.1 ∈ (submitted.take outcome.applied).map (·.1)
    · have hsub' : row.1 ∈ submitted.map (·.1) := by
        rw [map_take] at hsub
        exact mem_of_mem_take hsub
      have := isPosting_of_isVector (vector_of_peek hvector hpeek hrow hsub').2
      simp [this]
    · rw [decide_eq_true hsub, Bool.and_true]
  have hinherits := inherits_of_removeAll hmid
  rcases hstore' with rfl | ⟨sequence, row, reason, hrow, hkind, rfl⟩
  · exact ⟨hpostings, hinherits, hother, hfed⟩
  refine ⟨Eq.trans ?_ hpostings, ?_, ?_, hfed⟩
  · -- a row put in place of one of equal kind leaves the postings
    obtain ⟨front, back, hrows, hinsert⟩ := SeqMap.insert_of_mem hrow (row.quarantine reason)
    have hposting := isPosting_of_isVector hkind
    simp [postingRows, quarantineRow, rows, setQueue, hinsert, hrows, hposting]
  · intro row' hrow'
    have hrow' : row' ∈ ((mid.queues .derivedIndexOutbox).insert sequence
        (row.quarantine reason)).rows := by simpa [quarantineRow] using hrow'
    obtain ⟨k, row'⟩ := row'
    rcases SeqMap.mem_insert.mp hrow' with ⟨rfl, rfl⟩ | ⟨-, hmem⟩
    · obtain ⟨old, hold, hk, hop, hid⟩ := hinherits _ hrow
      exact ⟨old, hold, hk, by simpa using hop, by simpa using hid⟩
    · exact hinherits _ hmem
  · intro q' hq'
    simpa [quarantineRow, hq'] using hother q' hq'

/-! ## The floor agrees with the queues -/

/-- The floor holds the keys of the rows with tracked ordinary work, and no
others. -/
def FloorExact (store : DerivedIndexStore) : Prop :=
  ∀ key, key ∈ store.floor ↔ ∃ row, (key.sourceSequence, row) ∈ store.rows key.owner ∧
    trackedFloorKey key.owner key.sourceSequence row = some key

/-- An empty store has an empty floor. -/
theorem fresh_floorExact : fresh.FloorExact := by
  intro key
  simp [fresh, rows, SeqMap.empty]

/-- The key of a row that is removed or set aside is the key of no other row. -/
theorem trackedFloorKey_unique (hrow : (sequence, row) ∈ store.rows q)
    (hrow' : (key.sourceSequence, row') ∈ store.rows key.owner)
    (hkey : trackedFloorKey key.owner key.sourceSequence row' = some key) (howner : key.owner = q)
    (hseq : key.sourceSequence = sequence) : trackedFloorKey q sequence row = some key := by
  subst howner hseq
  rwa [SeqMap.row_unique hrow hrow']

section

variable (hfloor : store.FloorExact)

include hfloor

/-- On an exact floor a removal succeeds and keeps the floor exact. -/
theorem FloorExact.removeFromQueue (sequence : Nat) :
    ∃ store', store.removeFromQueue q sequence = .ok store' ∧ store'.FloorExact := by
  unfold DerivedIndexStore.removeFromQueue
  cases hget : (store.queues q).get sequence with
  | none => exact ⟨store, rfl, hfloor⟩
  | some row =>
    have hrow : (sequence, row) ∈ store.rows q := SeqMap.get_eq_some.mp hget
    -- the rows that stay, seen from the floor
    have hstay : ∀ (floor : Finset IndexPendingFloorKey) (key : IndexPendingFloorKey)
        (row' : DurableRow), (key.sourceSequence, row') ∈
          ({ store.setQueue q ((store.queues q).remove sequence) with
            floor := floor } : DerivedIndexStore).rows key.owner ↔
        (key.sourceSequence, row') ∈ store.rows key.owner ∧
          ¬(key.owner = q ∧ key.sourceSequence = sequence) := by
      intro floor key row'
      by_cases hq : key.owner = q
      · simp [rows, setQueue, hq, SeqMap.mem_remove, and_comm]
      · simp [rows, setQueue, hq]
    simp only
    cases htracked : trackedFloorKey q sequence row with
    | some key =>
      obtain ⟨-, howner, hseq, -⟩ := trackedFloorKey_eq_some.mp htracked
      have hmem : key ∈ store.floor := (hfloor key).mpr ⟨row, by
        rw [howner, hseq]
        exact ⟨hrow, htracked⟩⟩
      refine ⟨_, if_pos hmem, fun key' => ?_⟩
      simp only [Finset.mem_erase, hstay, hfloor key']
      constructor
      · rintro ⟨hne, row', hrow', hkey'⟩
        refine ⟨row', ⟨hrow', fun hsame => hne ?_⟩, hkey'⟩
        have := trackedFloorKey_unique hrow hrow' hkey' hsame.1 hsame.2
        exact Option.some.inj (this.symm.trans htracked)
      · rintro ⟨row', ⟨hrow', hother⟩, hkey'⟩
        refine ⟨fun heq => hother ?_, row', hrow', hkey'⟩
        exact heq ▸ ⟨howner, hseq⟩
    | none =>
      refine ⟨_, rfl, fun key' => ?_⟩
      have hrows := hstay store.floor key'
      simp only [floor_setQueue, hfloor key']
      constructor
      · rintro ⟨row', hrow', hkey'⟩
        refine ⟨row', (hrows row').mpr ⟨hrow', fun hsame => ?_⟩, hkey'⟩
        have := trackedFloorKey_unique hrow hrow' hkey' hsame.1 hsame.2
        rw [htracked] at this
        cases this
      · rintro ⟨row', hrow', hkey'⟩
        exact ⟨row', ((hrows row').mp hrow').1, hkey'⟩

/-- Removal never fails on an exact floor, and keeps it exact. -/
theorem FloorExact.removeAll (sequences : List Nat) :
    ∃ store', store.removeAll q sequences = .ok store' ∧ store'.FloorExact := by
  induction sequences generalizing store with
  | nil => exact ⟨store, rfl, hfloor⟩
  | cons sequence sequences ih =>
    obtain ⟨mid, hmid, hfloor⟩ := hfloor.removeFromQueue sequence
    obtain ⟨store', hstore', hfloor⟩ := ih hfloor
    exact ⟨store', by rw [DerivedIndexStore.removeAll, hmid]; exact hstore', hfloor⟩

/-- So does an append: each tracked row brings its floor key. -/
theorem FloorExact.append (h : store.append q what entries = .ok store') : store'.FloorExact := by
  obtain ⟨new, hrows, -, -, -, hother, -, hkeys⟩ := append_spec h
  intro key
  rw [hkeys, hfloor key]
  by_cases hq : key.owner = q
  · rw [hq, hrows]
    constructor
    · rintro (hnew | ⟨row, hrow, hkey⟩)
      · obtain ⟨⟨sequence, row⟩, hrow, hkey⟩ := mem_filterMap.mp hnew
        obtain ⟨-, -, hseq, -⟩ := trackedFloorKey_eq_some.mp hkey
        rw [hseq]
        exact ⟨row, mem_append_right _ hrow, hkey⟩
      · exact ⟨row, mem_append_left _ hrow, hkey⟩
    · rintro ⟨row, hrow, hkey⟩
      rcases mem_append.mp hrow with hrow | hrow
      · exact .inr ⟨row, hrow, hkey⟩
      · exact .inl (mem_filterMap.mpr ⟨_, hrow, hkey⟩)
  · rw [hother _ hq]
    constructor
    · rintro (hnew | hold)
      · obtain ⟨⟨sequence, row⟩, -, hkey⟩ := mem_filterMap.mp hnew
        exact absurd (trackedFloorKey_eq_some.mp hkey).2.1 hq
      · exact hold
    · exact .inr

/-- So does a quarantine, which keeps the row and its mutation. -/
theorem FloorExact.quarantineRow (hrow : (sequence, row) ∈ store.rows .derivedIndexOutbox) :
    (store.quarantineRow sequence row reason).FloorExact := by
  intro key
  have hkeys : trackedFloorKey .derivedIndexOutbox sequence (row.quarantine reason) =
      trackedFloorKey .derivedIndexOutbox sequence row := by simp [trackedFloorKey]
  change key ∈ store.floor ↔ _
  rw [hfloor key]
  by_cases hq : key.owner = .derivedIndexOutbox
  · rw [hq, DerivedIndexStore.quarantineRow, rows_setQueue_self]
    constructor
    · rintro ⟨row', hrow', hkey⟩
      by_cases hseq : key.sourceSequence = sequence
      · refine ⟨row.quarantine reason, SeqMap.mem_insert.mpr (.inl ⟨hseq, rfl⟩), ?_⟩
        rw [hseq, hkeys]
        rw [hseq] at hrow' hkey
        rwa [SeqMap.row_unique hrow hrow']
      · exact ⟨row', SeqMap.mem_insert.mpr (.inr ⟨hseq, hrow'⟩), hkey⟩
    · rintro ⟨row', hrow', hkey⟩
      rcases SeqMap.mem_insert.mp hrow' with ⟨hseq, rfl⟩ | ⟨-, hrow'⟩
      · rw [hseq, hkeys] at hkey
        exact ⟨row, by rw [hseq]; exact ⟨hrow, hkey⟩⟩
      · exact ⟨row', hrow', hkey⟩
  · rw [DerivedIndexStore.quarantineRow, rows_setQueue_of_ne hq]

/-- So does the outcome of a vector batch. -/
theorem FloorExact.applyVectorOutcome (h : store.applyVectorOutcome submitted outcome = .ok store') :
    store'.FloorExact := by
  obtain ⟨-, -, mid, hmid, hstore'⟩ := applyVectorOutcome_cases h
  obtain ⟨mid', hmid', hexact⟩ :=
    hfloor.removeAll ((submitted.take outcome.applied).map (·.1))
  obtain rfl : mid' = mid := Except.ok.inj (hmid'.symm.trans hmid)
  rcases hstore' with rfl | ⟨sequence, row, reason, hrow, -, rfl⟩
  · exact hexact
  · exact hexact.quarantineRow hrow

end

end DerivedIndexStore

end Gleaph
