import Gleaph.Bulk.Store

/-!
# Gleaph.Bulk.Calls

What a successful call has done to the store of a bulk load.

The calls that move a receipt share one frame, `withBulkChildTransition_eq_ok`,
and inside it a receipt and its parent make one of the steps of `ChildStep`;
an admission is one of `Admission`, and the calls that start, end and collect a
job make one of the steps of `Step`.
Nothing else reads the definitions of the calls.
-/

namespace Gleaph.Bulk

open BulkLoadLifecycle

/-! ## Receipts and records -/

namespace Store

variable {s s' : Store} {env : BulkEnv} {parent chunk : Nat} {fingerprint : Fingerprint}

@[simp] theorem record_putRecord (record : BulkLoadRecord) :
    (s.putRecord record).record = some record := rfl

@[simp] theorem counter_putRecord (record : BulkLoadRecord) :
    (s.putRecord record).counter = s.counter := rfl

@[simp] theorem receipt_putRecord (record : BulkLoadRecord) (job chunk : Nat) :
    (s.putRecord record).receipt job chunk = s.receipt job chunk := rfl

@[simp] theorem counter_putReceipt (job chunk : Nat) (receipt : BulkLoadChunkReceipt) :
    (s.putReceipt job chunk receipt).counter = s.counter := rfl

/-- A written receipt is read at its own key, and every other key reads as
before. -/
theorem receipt_putReceipt (job chunk : Nat) (receipt : BulkLoadChunkReceipt) (job' chunk' : Nat) :
    (s.putReceipt job chunk receipt).receipt job' chunk' =
      if job' = job ∧ chunk' = chunk then some receipt else s.receipt job' chunk' := by
  unfold putReceipt Store.receipt
  by_cases hjob : job' = job
  · subst hjob
    simp [SeqMap.get_insert]
  · simp [hjob]

/-- The record is found exactly if one is stored. -/
theorem lookup_eq_ok {record : BulkLoadRecord} : s.lookup = .ok record ↔ s.record = some record := by
  unfold lookup
  split <;> simp_all

/-- An open parent is the stored record under its own id, with a valid
coordinator whose receipts are not being collected. -/
theorem openParent_eq_ok {record : BulkLoadRecord}
    (h : s.openParent parent collecting = .ok (record, c)) :
    s.record = some record ∧ record.mutationId = parent ∧ c = record.coordinator ∧ c.Valid ∧
      c.receiptGcCursor = none := by
  obtain ⟨record', hlookup, h⟩ := bind_inv h
  split_ifs at h with hid
  obtain ⟨c', hparent, h⟩ := bind_inv h
  split_ifs at h with hgc
  cases h
  obtain ⟨hc, hvalid⟩ := BulkLoadRecord.bulkParent_eq_ok hparent
  exact ⟨lookup_eq_ok.mp hlookup, not_not.mp hid, hc, hvalid, by simpa using hgc⟩

/-- The error of a child's check is renamed, its verdict is not. -/
theorem validateChild_eq_ok (h : validateChild env child = .ok ()) :
    child.validate env = .ok () := by
  unfold validateChild at h
  split at h
  · cases h
  next hok => exact hok

/-! ## Steps of a receipt and its parent -/

/-- What a transition does to a receipt and its parent.  `told` is the row
count the caller tells, and `ends` whether the call is a completion. -/
inductive ChildStep (told : Option Nat) (ends : Bool) (child : BulkLoadChunkReceipt)
    (c : BulkLoadCoordinator) : BulkLoadChunkReceipt → BulkLoadCoordinator → Prop where
  | same : ChildStep told ends child c child c
  /-- The receipt moves on and the job stays at its chunk. -/
  | moves {child' c'} (pending : child.progress ≠ .completed) (still : child'.progress ≠ .completed)
      (ids : child'.resolvedUpdateVertexIds = child.resolvedUpdateVertexIds)
      (count : child'.updatedRowCount = child.updatedRowCount ∨
        child.updatedRowCount.isSome ∧ told.isSome ∧ child'.updatedRowCount = told)
      (next : c'.nextChunkIndex = c.nextChunkIndex) (lifecycle : c'.lifecycle = c.lifecycle)
      (gc : c'.receiptGcCursor = c.receiptGcCursor) : ChildStep told ends child c child' c'
  /-- The receipt is completed and the job leaves the chunk. -/
  | completes {child' c'} (ending : ends) (pending : child.progress ≠ .completed)
      (done : child'.progress = .completed)
      (count : child.progress = .retirementPending ∧
          child'.updatedRowCount = child.updatedRowCount ∨
        child.updatedRowCount.isSome ∧ told.isSome ∧ child'.updatedRowCount = told)
      (next : c'.nextChunkIndex = c.nextChunkIndex + 1)
      (active : c.lifecycle.activeChunk.isSome) (left : c'.lifecycle.activeChunk = none)
      (gc : c'.receiptGcCursor = c.receiptGcCursor) : ChildStep told ends child c child' c'
  /-- The receipt was completed before, and a job that aborts some chunk is
  ended. -/
  | repeats {c' k} (done : child.progress = .completed) (aborting : c.lifecycle = .abortPending k)
      (next : c'.nextChunkIndex = c.nextChunkIndex + 1)
      (committed : c'.committedChunkCount = c.committedChunkCount)
      (aborted : c'.lifecycle = .aborted) (gc : c'.receiptGcCursor = c.receiptGcCursor) :
      ChildStep told ends child c child c'

section Steps

variable {told : Option Nat} {ends : Bool} {child child' : BulkLoadChunkReceipt}
  {c c' : BulkLoadCoordinator}

/-- `checked_add(1)` that does not overflow is the successor. -/
theorem checkedSucc_eq_ok (h : checkedSucc x e = .ok y) : y = x + 1 := by
  unfold checkedSucc at h
  split_ifs at h
  exact (Except.ok.inj h).symm

/-- A completed chunk counts once and moves the next index by one. -/
theorem countCompleted_eq_ok (h : countCompleted c = .ok c') :
    c' = { c with
      completedChunkCount := c.completedChunkCount + 1, nextChunkIndex := c.nextChunkIndex + 1 } := by
  obtain ⟨completed, hcompleted, h⟩ := bind_inv h
  obtain ⟨next, hnext, h⟩ := bind_inv h
  rw [checkedSucc_eq_ok hcompleted, checkedSucc_eq_ok hnext] at h
  exact (Except.ok.inj h).symm

/-- The coordinator leaves the chunk it was in; the next index and the cursor
stay. -/
theorem leaveChunk_eq_ok (h : leaveChunk c = .ok c') :
    c.lifecycle.activeChunk.isSome ∧ c'.lifecycle.activeChunk = none ∧
      c'.nextChunkIndex = c.nextChunkIndex ∧ c'.receiptGcCursor = c.receiptGcCursor := by
  unfold leaveChunk at h
  split at h
  next hlifecycle =>
    cases h
    simp [hlifecycle, activeChunk]
  next hlifecycle =>
    cases h
    simp [hlifecycle, activeChunk]
  · cases h

/-- Completing a completed child again is a step whatever the caller was told.
-/
theorem repeatCompletion_step (hdone : child.progress = .completed)
    (h : repeatCompletion child c = .ok (child', c')) : ChildStep told ends child c child' c' := by
  unfold repeatCompletion at h
  split at h
  next k hlifecycle =>
    obtain ⟨counted, hcounted, h⟩ := bind_inv h
    cases countCompleted_eq_ok hcounted
    cases h
    exact .repeats hdone hlifecycle rfl rfl rfl rfl
  · cases h
    exact .same

/-- Progress of an update child is a step that was told the count. -/
theorem updateProgress_step (h : updateProgress count child c = .ok (child', c')) :
    ChildStep (some count) false child c child' c' := by
  unfold updateProgress at h
  split at h
  · cases h
  next recorded hrecorded =>
  dsimp only at h
  split_ifs at h with hadmitted hprogress hold hold
  · cases h
    exact .same
  · cases h
    exact .same
  cases h
  have hpending : child.progress = .canonicalPending := not_not.mp hprogress
  exact .moves (by simp [hpending]) (by simp [hpending]) rfl
    (.inr ⟨by simp [hrecorded], rfl, rfl⟩) rfl rfl rfl

/-- Completing an update child is a step that was told the count and ends the
child. -/
theorem updateCompletion_step (h : updateCompletion count now child c = .ok (child', c')) :
    ChildStep (some count) true child c child' c' := by
  unfold updateCompletion at h
  split_ifs at h with hinsert hdone hpending
  · exact repeatCompletion_step hdone h
  obtain ⟨committed, hcommitted, h⟩ := bind_inv h
  obtain ⟨counted, hcounted, h⟩ := bind_inv h
  obtain ⟨left, hleft, h⟩ := bind_inv h
  cases h
  cases countCompleted_eq_ok hcounted
  obtain ⟨hactive, hnone, hnext, hgc⟩ := leaveChunk_eq_ok hleft
  have hupdate : child.updatedRowCount.isSome := by simpa [Option.isNone_iff_eq_none,
    Option.isSome_iff_ne_none] using hinsert
  exact .completes rfl hdone rfl (.inr ⟨hupdate, rfl, rfl⟩) hnext hactive hnone hgc

/-- The canonical commit of an insert child is a step that was told nothing and
leaves the child open. -/
theorem canonicalCommit_step {receipt : AtomicInsertReceipt}
    (h : canonicalCommit graph receipt child c = .ok (child', c')) :
    ChildStep none false child c child' c' := by
  unfold canonicalCommit at h
  split_ifs at h with hprogress
  · cases h
    exact .same
  obtain ⟨operations, -, h⟩ := bind_inv h
  obtain ⟨vertices, -, h⟩ := bind_inv h
  obtain ⟨edges, -, h⟩ := bind_inv h
  obtain ⟨committed, -, h⟩ := bind_inv h
  cases h
  have hpending : child.progress = .canonicalPending := not_not.mp hprogress
  exact .moves (by simp [hpending]) (by simp) rfl (.inl rfl) rfl rfl rfl

/-- So is the wait for its projections. -/
theorem projectionPending_step (h : projectionPending child c = .ok (child', c')) :
    ChildStep none false child c child' c' := by
  unfold projectionPending at h
  split at h
  · cases h
  next hprogress =>
    cases h
    exact .moves (by simp [hprogress]) (by simp) rfl (.inl rfl) rfl rfl rfl
  · cases h
    exact .same

/-- So is the wait for its retirement. -/
theorem retirementPending_step (h : retirementPending child c = .ok (child', c')) :
    ChildStep none false child c child' c' := by
  unfold retirementPending at h
  split at h
  · cases h
  · cases h
  next hprogress =>
    cases h
    exact .moves (by simp [hprogress]) (by simp) rfl (.inl rfl) rfl rfl rfl
  · cases h
    exact .same

/-- Completing an insert child is a step that ends it. -/
theorem insertCompletion_step (h : insertCompletion now child c = .ok (child', c')) :
    ChildStep none true child c child' c' := by
  unfold insertCompletion at h
  split_ifs at h with hdone hpending
  · exact repeatCompletion_step hdone h
  obtain ⟨counted, hcounted, h⟩ := bind_inv h
  obtain ⟨left, hleft, h⟩ := bind_inv h
  cases h
  cases countCompleted_eq_ok hcounted
  obtain ⟨hactive, hnone, hnext, hgc⟩ := leaveChunk_eq_ok hleft
  exact .completes rfl hdone rfl (.inl ⟨not_not.mp hpending, rfl⟩) hnext hactive hnone hgc

end Steps

/-! ## Steps of the store -/

/-- A transition of a receipt, with all it has read and written. -/
structure ChildMove (env : BulkEnv) (told : Option Nat) (ends : Bool) (s : Store) (job chunk : Nat)
    (s' : Store) (record : BulkLoadRecord) (child child' : BulkLoadChunkReceipt) (record' : BulkLoadRecord) :
    Prop where
  found : s.record = some record
  id : record.mutationId = job
  valid : record.coordinator.Valid
  notCollecting : record.coordinator.receiptGcCursor = none
  receipt : s.receipt job chunk = some child
  step : ChildStep told ends child record.coordinator child' record'.coordinator
  validChild : child'.validate env = .ok ()
  id' : record'.mutationId = job
  valid' : record'.coordinator.Valid
  written : s' = (s.putReceipt job chunk child').putRecord record'

/-- A receipt has moved. -/
def Moved (env : BulkEnv) (told : Option Nat) (ends : Bool) (s : Store) (job chunk : Nat)
    (s' : Store) : Prop :=
  ∃ record child child' record', ChildMove env told ends s job chunk s' record child child' record'

/-- Every call that moves a child goes through this: if the transition makes
child steps, a call that succeeds moves the child of the parent's chunk. -/
theorem withBulkChildTransition_eq_ok
    (hsteps : ∀ {child c child' c'}, transition child c = .ok (child', c') →
      ChildStep told ends child c child' c')
    (h : s.withBulkChildTransition env parent chunk fingerprint terminalAtNs transition = .ok s') :
    Moved env told ends s parent chunk s' := by
  obtain ⟨⟨record, c⟩, hparent, h⟩ := bind_inv h
  obtain ⟨hrecord, hid, rfl, hvalid, hgc⟩ := openParent_eq_ok hparent
  dsimp only at h
  split at h
  · cases h
  next child hchild =>
  split_ifs at h
  obtain ⟨⟨child', c'⟩, hstep, h⟩ := bind_inv h
  obtain ⟨_, hvalidChild, h⟩ := bind_inv h
  obtain ⟨_, hvalid', h⟩ := bind_inv h
  refine ⟨record, child, child',
    terminalAtNs.elim { record with coordinator := c' }
      (BulkLoadRecord.markTerminalAtNs { record with coordinator := c' }),
    hrecord, hid, hvalid, hgc, hchild, ?_, validateChild_eq_ok hvalidChild, ?_, ?_,
    (Except.ok.inj h).symm⟩
  · cases terminalAtNs <;> simpa using hsteps hstep
  · cases terminalAtNs <;> simpa using hid
  · cases terminalAtNs <;> simpa using BulkLoadCoordinator.valid_of_validate hvalid'

/-- The receipts a collection takes away: completed ones, from its cursor on
without a gap. -/
structure Collected (s : Store) (job cursor : Nat) (rows : List (Nat × BulkLoadChunkReceipt)) :
    Prop where
  stored : ∀ row ∈ rows, s.receipt job row.1 = some row.2
  completed : ∀ row ∈ rows, row.2.progress = .completed
  keys : rows.map Prod.fst = List.range' cursor rows.length

/-- What a successful admission of a chunk can do. -/
inductive Admission (s : Store) (job chunk : Nat) : Store → Prop where
  | same : Admission s job chunk s
  | admits {record record' child} (found : s.record = some record)
      (current : record.mutationId = job)
      (opened : record.coordinator.lifecycle = .opened)
      (next : chunk = record.coordinator.nextChunkIndex)
      (notCollecting : record.coordinator.receiptGcCursor = none)
      (absent : s.receipt job chunk = none)
      (pending : child.progress = .canonicalPending)
      (count : child.updatedRowCount = none ∨
        child.updatedRowCount = some 0 ∧ child.resolvedUpdateVertexIds.isSome)
      (id : record'.mutationId = job)
      (appending : ∃ fingerprint child, record'.coordinator =
        { record.coordinator with lifecycle := .appendPending chunk fingerprint child })
      (valid : record'.coordinator.Valid) :
      Admission s job chunk (({ s with counter := s.counter + 1 }.putReceipt job chunk child).putRecord
        record')

/-- What the other calls can do, when they succeed. -/
inductive Step (s : Store) : Store → Prop where
  | same : Step s s
  | allocates : Step s { s with counter := s.counter + 1 }
  | starts {target : BulkLoadTarget} (free : s.record = none)
      (valid : BulkLoadCoordinator.Valid { target }) :
      Step s
        { s with counter := s.counter + 1, record := some ⟨s.counter + 1, { target }, none⟩ }
  /-- The job is finalized or aborted, or a scan of its receipts goes on. -/
  | ends {record record'} (found : s.record = some record)
      (id : record'.mutationId = record.mutationId)
      (next : record'.coordinator.nextChunkIndex = record.coordinator.nextChunkIndex)
      (active : record'.coordinator.lifecycle.activeChunk = record.coordinator.lifecycle.activeChunk)
      (gc : record'.coordinator.receiptGcCursor = record.coordinator.receiptGcCursor)
      (valid : record'.coordinator.Valid) : Step s (s.putRecord record')
  | collects {record rows cursor} (found : s.record = some record)
      (terminal : record.isTerminal)
      (rows' : Collected s record.mutationId (record.coordinator.receiptGcCursor.getD 0) rows)
      (nonempty : rows ≠ [])
      (next : cursor = record.coordinator.receiptGcCursor.getD 0 + rows.length)
      (valid : BulkLoadCoordinator.Valid { record.coordinator with receiptGcCursor := some cursor }) :
      Step s ((s.removeReceipts record.mutationId rows).putRecord
        { record with coordinator := { record.coordinator with receiptGcCursor := some cursor } })
  /-- No receipt is left behind the cursor, but one before it. -/
  | rewinds {record chunk child} (found : s.record = some record)
      (left : s.receipt record.mutationId chunk = some child)
      (gone : ∀ chunk, record.coordinator.receiptGcCursor.getD 0 ≤ chunk →
        s.receipt record.mutationId chunk = none)
      (valid : BulkLoadCoordinator.Valid { record.coordinator with receiptGcCursor := some 0 }) :
      Step s (s.putRecord
        { record with coordinator := { record.coordinator with receiptGcCursor := some 0 } })
  | forgets {record} (found : s.record = some record)
      (gone : ∀ chunk, s.receipt record.mutationId chunk = none) :
      Step s { s with record := none }

/-! ### Calls on a chunk -/

/-- Recorded progress moves the child to the count the caller has. -/
theorem recordBulkLoadUpdateProgress_move
    (h : s.recordBulkLoadUpdateProgress env parent chunk fingerprint count = .ok s') :
    Moved env (some count) false s parent chunk s' :=
  withBulkChildTransition_eq_ok updateProgress_step h

/-- Completing an update child moves it to the count the caller has and ends it.
-/
theorem completeBulkLoadUpdateChild_move
    (h : s.completeBulkLoadUpdateChild env parent chunk fingerprint count now = .ok s') :
    Moved env (some count) true s parent chunk s' :=
  withBulkChildTransition_eq_ok updateCompletion_step h

/-- A recorded canonical commit moves the insert child on. -/
theorem recordBulkLoadCanonicalCommitted_move {receipt : AtomicInsertReceipt}
    (h : s.recordBulkLoadCanonicalCommitted env parent chunk fingerprint graph receipt = .ok s') :
    Moved env none false s parent chunk s' := by
  unfold recordBulkLoadCanonicalCommitted at h
  split_ifs at h
  split at h
  · cases h
  · exact withBulkChildTransition_eq_ok canonicalCommit_step h

/-- A recorded retirement wait moves the insert child on. -/
theorem recordBulkLoadRetirementPending_move
    (h : s.recordBulkLoadRetirementPending env parent chunk fingerprint = .ok s') :
    Moved env none false s parent chunk s' :=
  withBulkChildTransition_eq_ok retirementPending_step h

/-- Completing an insert child ends it. -/
theorem completeBulkLoadChild_move
    (h : s.completeBulkLoadChild env parent chunk fingerprint now = .ok s') :
    Moved env none true s parent chunk s' :=
  withBulkChildTransition_eq_ok insertCompletion_step h

/-! ### Calls on a job -/

/-- The next id is the counter's successor. -/
theorem nextMutationId_eq_ok (h : s.nextMutationId = .ok next) : next = s.counter + 1 := by
  unfold nextMutationId at h
  split_ifs at h
  exact (Except.ok.inj h).symm

/-- A child's id is the counter's successor too. -/
theorem nextChildId_eq_ok (h : s.nextChildId parent = .ok next) : next = s.counter + 1 := by
  unfold nextChildId at h
  split_ifs at h
  exact (Except.ok.inj h).symm

/-- Handing out an id is a step of the store. -/
theorem allocateMutationId_step {id : Nat} (h : s.allocateMutationId = .ok (id, s')) :
    Step s s' := by
  obtain ⟨next, hnext, h⟩ := bind_inv h
  cases nextMutationId_eq_ok hnext
  cases h
  exact .allocates

/-- Starting a job, or finding it started, is a step of the store. -/
theorem startBulkLoadJob_step (h : s.startBulkLoadJob target = .ok (admission, s')) :
    Step s s' := by
  obtain ⟨_, htarget, h⟩ := bind_inv h
  split at h
  · obtain ⟨c, -, h⟩ := bind_inv h
    split_ifs at h
    cases h
    exact .same
  next hfree =>
  obtain ⟨id, hid, h⟩ := bind_inv h
  cases nextMutationId_eq_ok hid
  cases h
  exact .starts hfree ⟨rfl, Nat.zero_le _, fun _ => rfl, by simp, fun _ => rfl⟩

/-- An admitted child leaves its parent append-pending at the chunk, and the new
coordinator is valid. -/
theorem admitChild_eq_ok {record : BulkLoadRecord} (h : s.admitChild record chunk child = .ok s') :
    ∃ c, c = { record.coordinator with
        lifecycle := .appendPending chunk child.chunkFingerprint child.childMutationId } ∧ c.Valid ∧
      s' = ({ s with counter := child.childMutationId }.putReceipt record.mutationId chunk
        child).putRecord { record with coordinator := c } := by
  obtain ⟨_, hvalid, h⟩ := bind_inv h
  exact ⟨_, rfl, BulkLoadCoordinator.valid_of_validate hvalid, (Except.ok.inj h).symm⟩

/-- The admission of an insert child, new or found, is an admission at its
chunk. -/
theorem admitBulkLoadChild_admission {id : Nat} (hinsert : child.updatedRowCount = none)
    (h : s.admitBulkLoadChild env parent chunk fingerprint child = .ok (id, s')) :
    Admission s parent chunk s' := by
  obtain ⟨⟨record, c⟩, hparent, h⟩ := bind_inv h
  obtain ⟨hrecord, rfl, rfl, hvalid, hgc⟩ := openParent_eq_ok hparent
  dsimp only at h
  split at h
  · split_ifs at h
    cases h
    exact .same
  next habsent =>
  split_ifs at h with hopen hfingerprint
  obtain ⟨childId, hchildId, h⟩ := bind_inv h
  obtain ⟨_, hvalidChild, h⟩ := bind_inv h
  split at h
  · cases h
  split_ifs at h
  obtain ⟨admitted, hadmit, h⟩ := bind_inv h
  cases h
  cases nextChildId_eq_ok hchildId
  obtain ⟨c', rfl, hvalid', rfl⟩ := admitChild_eq_ok hadmit
  push Not at hopen
  exact .admits hrecord rfl hopen.1 hopen.2 hgc habsent rfl (.inl hinsert) rfl ⟨_, _, rfl⟩ hvalid'

/-- So is the admission of an update child with its rows' vertex ids. -/
theorem admitBulkLoadUpdateChild_admission
    (h : s.admitBulkLoadUpdateChild env parent chunk fingerprint (some ids) = .ok (admission, s')) :
    Admission s parent chunk s' := by
  obtain ⟨⟨record, c⟩, hparent, h⟩ := bind_inv h
  obtain ⟨hrecord, rfl, rfl, hvalid, hgc⟩ := openParent_eq_ok hparent
  dsimp only at h
  split at h
  · split_ifs at h
    · cases h
      exact .same
    obtain ⟨grant, -, h⟩ := bind_inv h
    cases h
    exact .same
  next habsent =>
  split_ifs at h with hopen
  obtain ⟨childId, hchildId, h⟩ := bind_inv h
  obtain ⟨_, hvalidChild, h⟩ := bind_inv h
  obtain ⟨admitted, hadmit, h⟩ := bind_inv h
  cases h
  cases nextChildId_eq_ok hchildId
  obtain ⟨c', rfl, hvalid', rfl⟩ := admitChild_eq_ok hadmit
  push Not at hopen
  exact .admits hrecord rfl hopen.1 hopen.2 hgc habsent rfl (.inr ⟨rfl, rfl⟩) rfl ⟨_, _, rfl⟩ hvalid'

/-- A call that reads the job and goes on with it. -/
theorem bulkParent_bind {β : Type} {out : β}
    {rest : BulkLoadRecord → BulkLoadCoordinator → Except RouterError β}
    (h : (s.lookup >>= fun record => record.bulkParent >>= rest record) = .ok out) :
    ∃ record, s.record = some record ∧ record.coordinator.Valid ∧
      rest record record.coordinator = .ok out := by
  obtain ⟨record, hlookup, h⟩ := bind_inv h
  obtain ⟨c, hparent, h⟩ := bind_inv h
  obtain ⟨rfl, hvalid⟩ := BulkLoadRecord.bulkParent_eq_ok hparent
  exact ⟨record, lookup_eq_ok.mp hlookup, hvalid, h⟩

/-- The record of a job that moves to another lifecycle is written. -/
theorem ends_of_validate {record : BulkLoadRecord} (hrecord : s.record = some record)
    (hid : record'.mutationId = record.mutationId)
    (hc : record'.coordinator = { record.coordinator with lifecycle })
    (hactive : lifecycle.activeChunk = record.coordinator.lifecycle.activeChunk)
    (hvalid : ({ record.coordinator with lifecycle } : BulkLoadCoordinator).validate = .ok ()) :
    Step s (s.putRecord record') :=
  .ends hrecord hid (by rw [hc]) (by rw [hc]; exact hactive) (by rw [hc])
    (by rw [hc]; exact BulkLoadCoordinator.valid_of_validate hvalid)

/-- Beginning to finalize is a step of the store. -/
theorem beginBulkLoadFinalize_step {c : BulkLoadCoordinator}
    (h : s.beginBulkLoadFinalize = .ok (c, s')) : Step s s' := by
  obtain ⟨record, hrecord, hvalid, h⟩ := bulkParent_bind h
  split at h
  · cases h
  split at h
  next hlifecycle =>
    split_ifs at h
    obtain ⟨_, hvalid', h⟩ := bind_inv h
    cases h
    exact ends_of_validate hrecord rfl rfl (by simp [hlifecycle, activeChunk]) hvalid'
  · cases h
    exact .same
  · cases h
  · cases h
  · cases h
    exact .same
  · cases h
  · cases h

/-- Beginning to abort is a step of the store, at whatever point it finds the
job. -/
theorem beginBulkLoadAbort_step {now : Nat} {c : BulkLoadCoordinator}
    (h : s.beginBulkLoadAbort now = .ok (c, s')) : Step s s' := by
  obtain ⟨record, hrecord, hvalid, h⟩ := bulkParent_bind h
  split at h
  · cases h
  split at h
  next hlifecycle =>
    split_ifs at h
    obtain ⟨_, hvalid', h⟩ := bind_inv h
    cases h
    exact ends_of_validate hrecord (by simp) (by simp) (by simp [hlifecycle, activeChunk]) hvalid'
  next hlifecycle =>
    obtain ⟨_, hvalid', h⟩ := bind_inv h
    cases h
    exact ends_of_validate hrecord rfl rfl (by simp [hlifecycle, activeChunk]) hvalid'
  · cases h
    exact .same
  · cases h
  · cases h
  · cases h
    exact .same
  · cases h

/-- The coordinator an abort returns is the stored one. -/
theorem beginBulkLoadAbort_coordinator {now : Nat} {c : BulkLoadCoordinator}
    {record : BulkLoadRecord} (h : s.beginBulkLoadAbort now = .ok (c, s'))
    (hrecord : s'.record = some record) : record.coordinator = c := by
  obtain ⟨record', hrecord', -, h⟩ := bulkParent_bind h
  split at h
  · cases h
  split at h
  · split_ifs at h
    obtain ⟨_, -, h⟩ := bind_inv h
    cases h
    cases hrecord
    simp
  · obtain ⟨_, -, h⟩ := bind_inv h
    cases h
    cases hrecord
    rfl
  · cases h
    cases hrecord'.symm.trans hrecord
    rfl
  · cases h
  · cases h
  · cases h
    cases hrecord'.symm.trans hrecord
    rfl
  · cases h

/-- One batch of the finalize scan is a step of the store. -/
theorem finalizeBulkLoadStep_step {now : Nat} {c : BulkLoadCoordinator}
    (h : s.finalizeBulkLoadStep now = .ok (c, s')) : Step s s' := by
  obtain ⟨record, hrecord, hvalid, h⟩ := bulkParent_bind h
  split at h
  next cursor hlifecycle =>
    obtain ⟨next, -, h⟩ := bind_inv h
    split_ifs at h
    · obtain ⟨_, hvalid', h⟩ := bind_inv h
      cases h
      exact ends_of_validate hrecord rfl rfl (by simp [hlifecycle, activeChunk]) hvalid'
    obtain ⟨_, hvalid', h⟩ := bind_inv h
    cases h
    -- A pending finalize has no cursor of a collection to clear.
    have hgc : record.coordinator.receiptGcCursor = none :=
      hvalid.collecting (by simp [hlifecycle, isTerminal])
    rw [← hgc] at hvalid' ⊢
    exact ends_of_validate hrecord (by simp) (by simp) (by simp [hlifecycle, activeChunk]) hvalid'
  · cases h
    exact .same
  · cases h

/-! ### Collection -/

/-- A scan that does not fail read completed receipts only, at consecutive chunk
indices from the cursor on. -/
theorem scanCompleted_eq_ok :
    ∀ {cursor next : Nat}, scanCompleted gap overflow cursor rows = .ok next →
      (∀ row ∈ rows, row.2.progress = .completed) ∧
        rows.map Prod.fst = List.range' cursor rows.length ∧ next = cursor + rows.length := by
  induction rows with
  | nil =>
    intro cursor next h
    cases h
    simp
  | cons row rows ih =>
    intro cursor next h
    obtain ⟨chunk, receipt⟩ := row
    unfold scanCompleted at h
    split_ifs at h with hchunk hprogress
    obtain ⟨cursor', hcursor, h⟩ := bind_inv h
    cases checkedSucc_eq_ok hcursor
    obtain ⟨hcompleted, hkeys, hnext⟩ := ih h
    have hchunk : chunk = cursor := not_not.mp hchunk
    refine ⟨?_, by simp [hkeys, hchunk, List.range'_succ], by simp [hnext]; omega⟩
    simpa using ⟨not_not.mp hprogress, fun k r hr => hcompleted (k, r) hr⟩

/-- The search for a later receipt finds one exactly if there is one. -/
theorem hasJobReceiptAtOrAfter_iff :
    s.hasJobReceiptAtOrAfter job start = true ↔
      ∃ chunk child, start ≤ chunk ∧ s.receipt job chunk = some child := by
  unfold hasJobReceiptAtOrAfter Store.receipt
  simp [SeqMap.get_eq_some, and_comm]

/-- The removed receipts are gone, and every other key reads as before. -/
theorem receipt_removeReceipts (job : Nat) (rows : List (Nat × BulkLoadChunkReceipt))
    (job' chunk : Nat) :
    (s.removeReceipts job rows).receipt job' chunk =
      if job' = job ∧ chunk ∈ rows.map Prod.fst then none else s.receipt job' chunk := by
  have hget : ∀ m : SeqMap BulkLoadChunkReceipt,
      (rows.foldl (fun receipts row => receipts.remove row.1) m).get chunk =
        if chunk ∈ rows.map Prod.fst then none else m.get chunk := by
    induction rows with
    | nil => simp
    | cons row rows ih =>
      intro m
      rw [List.foldl_cons, ih, SeqMap.get_remove]
      by_cases hrow : chunk = row.1
      · simp [hrow]
      · simp only [List.map_cons, List.mem_cons, hrow, false_or, if_false]
  unfold removeReceipts Store.receipt
  by_cases hjob : job' = job
  · subst hjob
    simp only [Function.update_self, hget, true_and]
  · simp [hjob]

/-- One batch of the receipt collection is a step of the store. -/
theorem bulkLoadReceiptGcStep_step (h : s.bulkLoadReceiptGcStep now = .ok (result, s')) :
    Step s s' := by
  unfold bulkLoadReceiptGcStep at h
  split at h
  · cases h
    exact .same
  next record hrecord =>
  obtain ⟨c, hparent, h⟩ := bind_inv h
  obtain ⟨rfl, hvalid⟩ := BulkLoadRecord.bulkParent_eq_ok hparent
  split at h
  · cases h
    exact .same
  next hexpired =>
  have hterminal : record.isTerminal := by
    simp only [expiredTerminal, Bool.not_eq_true', Bool.not_eq_false,
      Bool.and_eq_true] at hexpired
    exact hexpired.1
  split at h
  · cases h
  obtain ⟨next, hscan, h⟩ := bind_inv h
  obtain ⟨hcompleted, hkeys, hnext⟩ := scanCompleted_eq_ok hscan
  split at h
  next hempty =>
    split at h
    next hleft =>
      obtain ⟨_, hvalid', h⟩ := bind_inv h
      cases h
      obtain ⟨chunk, child, -, hchild⟩ := hasJobReceiptAtOrAfter_iff.mp hleft
      refine .rewinds hrecord hchild
        (fun chunk hchunk => SeqMap.get_eq_none.mpr fun child hmem => ?_)
        (BulkLoadCoordinator.valid_of_validate hvalid')
      -- rows are scanned as long as there are any
      rw [List.isEmpty_iff, jobReceiptRows, List.take_eq_nil_iff] at hempty
      have := List.filter_eq_nil_iff.mp (hempty.resolve_left (by decide)) (chunk, child) hmem
      simp at this
      omega
    next hleft =>
      cases h
      refine .forgets hrecord fun chunk => ?_
      by_contra hsome
      obtain ⟨child, hchild⟩ := Option.ne_none_iff_exists'.mp hsome
      exact hleft (hasJobReceiptAtOrAfter_iff.mpr ⟨chunk, child, Nat.zero_le _, hchild⟩)
  next hempty =>
    obtain ⟨_, hvalid', h⟩ := bind_inv h
    cases h
    refine .collects hrecord hterminal ⟨fun row hrow => ?_, hcompleted, hkeys⟩
      (fun hnil => hempty (by rw [hnil]; rfl)) hnext
      (BulkLoadCoordinator.valid_of_validate hvalid')
    exact SeqMap.get_eq_some.mpr (List.mem_filter.mp (List.mem_of_mem_take hrow)).1

end Store

end Gleaph.Bulk
