import Gleaph.Bulk.Calls
import Gleaph.Bulk.System

/-!
# Gleaph.Bulk.RowCalls

What the calls on a row's record do.

A record keeps its id and its chunk, and moves as `RowRecord.Next` says; only a
reservation makes a new one, and takes an id for it.
-/

namespace Gleaph.Bulk

/-- The moves of a row's record.  `entry` is the count a capture has read. -/
inductive RowRecord.Next (entry : Option Nat) (record : RowRecord) : RowRecord → Prop where
  | leases {record'} (id : record'.mutationId = record.mutationId)
      (chunk : record'.chunk = record.chunk) (shard : record'.shard = record.shard)
      (count : record'.completedRowCount = record.completedRowCount) : Next entry record record'
  | envelops {record'} (id : record'.mutationId = record.mutationId)
      (chunk : record'.chunk = record.chunk) (none : record.completedRowCount = none)
      (shard : record'.shard = some {}) (count : record'.completedRowCount = Option.none) :
      Next entry record record'
  | captures {record' shard count} (id : record'.mutationId = record.mutationId)
      (chunk : record'.chunk = record.chunk) (read : entry = some count)
      (sent : record.shard = some shard)
      (told : record'.shard = some { shard with completed := true, rowCount := count } ∧
          record'.completedRowCount = record.completedRowCount ∨
        record'.shard = none ∧ record'.completedRowCount = some count) : Next entry record record'
  | publishes {record' shard} (id : record'.mutationId = record.mutationId)
      (chunk : record'.chunk = record.chunk) (sent : record.shard = some shard)
      (completed : shard.completed) (shard' : record'.shard = none)
      (count : record'.completedRowCount = some shard.rowCount) : Next entry record record'

/-- A record keeps its id and its chunk. -/
theorem RowRecord.Next.id_chunk {record record' : RowRecord} (h : record.Next entry record') :
    record'.mutationId = record.mutationId ∧ record'.chunk = record.chunk := by
  cases h with
  | leases hid hchunk => exact ⟨hid, hchunk⟩
  | envelops hid hchunk => exact ⟨hid, hchunk⟩
  | captures hid hchunk => exact ⟨hid, hchunk⟩
  | publishes hid hchunk => exact ⟨hid, hchunk⟩

namespace Router

variable {r r' : Router} {key : RowKey} {mutationId now : Nat} {entry : Option Nat}

@[simp] theorem store_putRow (record : RowRecord) : (r.putRow key record).store = r.store := rfl

@[simp] theorem calls_putRow (record : RowRecord) : (r.putRow key record).calls = r.calls := rfl

@[simp] theorem rows_putRow_self (record : RowRecord) : (r.putRow key record).rows key = some record := by
  simp [putRow]

/-- A written row is read at its own key, and every other key reads as before.
-/
theorem rows_putRow (record : RowRecord) (key' : RowKey) :
    (r.putRow key record).rows key' = if key' = key then some record else r.rows key' := by
  by_cases h : key' = key <;> simp [putRow, h]

/-- Sending a row leaves the store of the chunks alone. -/
theorem store_send : (r.send key mutationId).store = r.store := by
  unfold send
  split <;> rfl

/-- A call has left the records alone, or moved the record it names. -/
inductive RowMove (entry : Option Nat) (r : Router) (key : RowKey) (mutationId : Nat) :
    Router → Prop where
  | same : RowMove entry r key mutationId r
  | moves {record record'} (found : r.rows key = some record) (id : record.mutationId = mutationId)
      (next : record.Next entry record') : RowMove entry r key mutationId (r.putRow key record')

/-- So does every move of a row's record. -/
theorem RowMove.store_eq (h : RowMove entry r key mutationId r') : r'.store = r.store := by
  cases h <;> rfl

/-- A call that reads the record of the row and goes on with it. -/
theorem scalarMutationRecord_bind {β : Type} {rest : RowRecord → Except RouterError β} {out : β}
    (h : (r.scalarMutationRecord key mutationId >>= rest) = .ok out) :
    ∃ record, r.rows key = some record ∧ record.mutationId = mutationId ∧ rest record = .ok out := by
  obtain ⟨record, hrecord, h⟩ := bind_inv h
  unfold scalarMutationRecord at hrecord
  split at hrecord
  · cases hrecord
  next hfound =>
  split_ifs at hrecord with hid
  cases hrecord
  exact ⟨record, hfound, not_not.mp hid, h⟩

/-- A plan may be sent while the shard has not completed and the chunk is
pending. -/
theorem scalarDispatchGate_eq_dispatch (h : r.scalarDispatchGate key mutationId = .ok .dispatch) :
    ∃ record shard, r.rows key = some record ∧ record.mutationId = mutationId ∧
      record.shard = some shard ∧ bulkLoadUpdateReplayRequired r.store record.chunk := by
  obtain ⟨record, hfound, hid, h⟩ := scalarMutationRecord_bind h
  split at h
  · cases h
  split at h
  · cases h
  split at h
  · cases h
  next shard hshard =>
  split at h
  · cases h
  split at h
  · cases h
  next hpending => exact ⟨record, shard, hfound, hid, hshard, by simpa using hpending⟩

/-- The gate answers with a count only if the row's record holds it. -/
theorem scalarDispatchGate_eq_completed {count : Nat}
    (h : r.scalarDispatchGate key mutationId = .ok (.completed count)) :
    r.completedRowCount key = some count := by
  obtain ⟨record, hfound, -, h⟩ := scalarMutationRecord_bind h
  split at h
  next hcount =>
    cases h
    simp [completedRowCount, hfound, hcount]
  split at h
  · cases h
  split at h
  · cases h
  split at h
  · cases h
  · split at h <;> cases h

/-- Writing down the shard a row goes to is a move of its record. -/
theorem recordRouterMutationShards_eq_ok (h : r.recordRouterMutationShards key mutationId = .ok r') :
    RowMove entry r key mutationId r' := by
  obtain ⟨record, hfound, hid, h⟩ := scalarMutationRecord_bind h
  split_ifs at h with hcompleted hshard
  · cases h
    exact .same
  cases h
  have hnone : record.completedRowCount = none := by simpa using hcompleted
  exact .moves hfound hid (.envelops rfl rfl hnone rfl hnone)

/-- So is giving a routing up. -/
theorem abandonRouting_eq_ok (h : r.abandonRouting key mutationId = .ok r') :
    RowMove entry r key mutationId r' := by
  obtain ⟨record, hfound, hid, h⟩ := scalarMutationRecord_bind h
  split_ifs at h
  · cases h
    exact .same
  · cases h
    exact .moves hfound hid (.leases rfl rfl rfl rfl)

section

variable (record : RowRecord)

include record

@[simp] theorem mutationId_markTerminalAtNs :
    (record.markTerminalAtNs now).mutationId = record.mutationId := by
  unfold RowRecord.markTerminalAtNs
  split <;> rfl

@[simp] theorem chunk_markTerminalAtNs : (record.markTerminalAtNs now).chunk = record.chunk := by
  unfold RowRecord.markTerminalAtNs
  split <;> rfl

@[simp] theorem shard_markTerminalAtNs : (record.markTerminalAtNs now).shard = record.shard := by
  unfold RowRecord.markTerminalAtNs
  split <;> rfl

@[simp] theorem completedRowCount_markTerminalAtNs :
    (record.markTerminalAtNs now).completedRowCount = record.completedRowCount := by
  unfold RowRecord.markTerminalAtNs
  split <;> rfl

/-- A record whose shard completes gets its count, now or with the
projection. -/
theorem finishRow_spec (shard : RowShard) (now : Nat) :
    (finishRow record shard now).mutationId = record.mutationId ∧
      (finishRow record shard now).chunk = record.chunk ∧
      (if shard.completed ∧ shard.projectionAdvanced then
        (finishRow record shard now).shard = none ∧
          (finishRow record shard now).completedRowCount = some shard.rowCount
      else (finishRow record shard now).shard = some shard ∧
        (finishRow record shard now).completedRowCount = record.completedRowCount) := by
  unfold finishRow RowRecord.compactCompletedRecord
  split_ifs <;> simp

end

/-- So is a canonical completion, which is told the count of the row. -/
theorem recordCanonicalCompleted_eq_ok {count : Nat}
    (h : r.recordCanonicalCompleted key mutationId count now = .ok r') :
    RowMove (some count) r key mutationId r' := by
  obtain ⟨record, hfound, hid, h⟩ := scalarMutationRecord_bind h
  split at h
  · split_ifs at h
    cases h
    exact .same
  next shard hshard =>
  split_ifs at h with hcompleted hcount
  · cases h
    exact .same
  cases h
  obtain ⟨hid', hchunk, htold⟩ :=
    finishRow_spec record { shard with completed := true, rowCount := count } now
  refine .moves hfound hid (.captures hid' hchunk rfl hshard ?_)
  split_ifs at htold
  · exact .inr htold
  · exact .inl htold

/-- So is an advanced projection, which publishes the count once the shard has
completed. -/
theorem recordProjectionAdvanced_eq_ok (h : r.recordProjectionAdvanced key mutationId now = .ok r') :
    RowMove entry r key mutationId r' := by
  obtain ⟨record, hfound, hid, h⟩ := scalarMutationRecord_bind h
  split at h
  · split_ifs at h
    cases h
    exact .same
  next shard hshard =>
  split_ifs at h with hcompleted hadvanced
  · cases h
    exact .same
  cases h
  have hcompleted : shard.completed = true := by simpa using hcompleted
  obtain ⟨hid', hchunk, htold⟩ :=
    finishRow_spec record { shard with projectionAdvanced := true } now
  rw [if_pos ⟨hcompleted, rfl⟩] at htold
  exact .moves hfound hid (.publishes hid' hchunk hshard hcompleted htold.1 htold.2)

/-- A capture hands on the entry it was given, and moves the record by it at
most. -/
theorem captureRow_eq_ok (h : captureRow r key mutationId entry now = .ok (entry', r')) :
    entry' = entry ∧ RowMove entry r key mutationId r' := by
  unfold captureRow at h
  split at h
  · cases h
    exact ⟨rfl, .same⟩
  obtain ⟨r'', hcompleted, h⟩ := bind_inv h
  cases h
  exact ⟨rfl, recordCanonicalCompleted_eq_ok hcompleted⟩

/-! ## Reservations -/

/-- What a reservation does: it leases the record of the row, or makes one for
a chunk that is pending. -/
inductive Reserves (r : Router) (key : RowKey) (chunk : BulkLoadChunkReceiptKey) (mutationId : Nat) :
    Router → Prop where
  | leases {r' record} (found : r.rows key = some record) (id : record.mutationId = mutationId)
      (owner : record.chunk = chunk) (move : RowMove none r key mutationId r') :
      Reserves r key chunk mutationId r'
  | makes {record} (free : r.rows key = none) (pending : bulkLoadUpdateReplayRequired r.store chunk)
      (id : mutationId = r.store.counter + 1) (id' : record.mutationId = mutationId)
      (owner : record.chunk = chunk) (shard : record.shard = none)
      (count : record.completedRowCount = none) :
      Reserves r key chunk mutationId
        ({ r with store := { r.store with counter := r.store.counter + 1 } }.putRow key record)

/-- A reservation that succeeds leases the row's record or makes it. -/
theorem reserveBulkLoadUpdateRow_eq_ok {chunk : BulkLoadChunkReceiptKey}
    (h : r.reserveBulkLoadUpdateRow key fingerprint chunk now = .ok (reservation, r')) :
    Reserves r key chunk reservation.mutationId r' := by
  unfold reserveBulkLoadUpdateRow at h
  split at h
  next record hfound =>
    split_ifs at h with hexpired hidentity
    push Not at hidentity
    unfold reserveExisting at h
    dsimp only at h
    split_ifs at h <;> cases h
    · exact .leases hfound rfl hidentity.2 (.moves hfound rfl (.leases rfl rfl rfl rfl))
    · exact .leases hfound rfl hidentity.2 (.moves hfound rfl (.leases rfl rfl rfl rfl))
    · exact .leases hfound rfl hidentity.2 .same
  next hfree =>
  split_ifs at h with hpending
  obtain ⟨⟨id, store⟩, hid, h⟩ := bind_inv h
  obtain ⟨next, hnext, hstore⟩ := bind_inv hid
  cases hstore
  cases Store.nextMutationId_eq_ok hnext
  cases h
  exact .makes hfree (by simpa using hpending) rfl rfl rfl rfl rfl

/-- The job and its receipts stay, and at most an id is taken. -/
theorem Reserves.store_eq {chunk : BulkLoadChunkReceiptKey} (h : Reserves r key chunk mutationId r') :
    r'.store = r.store ∨ r'.store = { r.store with counter := r.store.counter + 1 } := by
  cases h with
  | leases _ _ _ hmove => exact .inl hmove.store_eq
  | makes => exact .inr rfl

end Router

end Gleaph.Bulk
