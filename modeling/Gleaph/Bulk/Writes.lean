import Gleaph.Bulk.Chunks
import Gleaph.Bulk.RowCalls

/-!
# Gleaph.Bulk.Writes

The rows of update chunks and the writes on the shards.

`Router.Inv` ties three things together: the records of the rows, the journals
of the shards, and how often each row was written.  While a chunk is pending,
its rows are started in order (`ChunkSound.order`), and a row was written, once,
if the journal of its record says so (`ChunkSound.writes`).  A plan that can
still write is one of a pending chunk (`Sent`), so the writes of a completed
chunk do not change any more.
-/

namespace Gleaph.Bulk

/-! ## The invariant -/

/-- A record fits the store and the journal. -/
structure RowSound (g : Graph) (s : Store) (key : RowKey) (record : RowRecord) : Prop where
  chunk : record.chunk.chunkIndex = key.chunk
  job : ∀ {parent}, s.record = some parent → record.chunk.jobMutationId = parent.mutationId
  id_le : record.mutationId ≤ s.counter
  admitted : s.Admitted record.chunk
  unsent : record.shard = none → record.completedRowCount = none →
    g.journal record.mutationId = none
  captured : ∀ {shard}, record.shard = some shard → shard.completed →
    g.journal record.mutationId = some shard.rowCount
  notAdvanced : ∀ {shard}, record.shard = some shard → shard.projectionAdvanced = false
  completed : ∀ {count}, record.completedRowCount = some count →
    g.journal record.mutationId = some count

/-- The journal has a write under the record of a row. -/
def Written (g : Graph) (rows : RowKey → Option RowRecord) (key : RowKey) : Prop :=
  ∃ record, rows key = some record ∧ g.journal record.mutationId = some 1

/-- The rows of a pending chunk. -/
structure ChunkSound (g : Graph) (rows : RowKey → Option RowRecord) (owner : BulkLoadChunkReceiptKey)
    (child : BulkLoadChunkReceipt) : Prop where
  ids : ∃ ids, child.resolvedUpdateVertexIds = some ids ∧
    ∀ {i record}, rows ⟨owner.chunkIndex, i⟩ = some record → i < ids.length
  order : ∀ {i record}, rows ⟨owner.chunkIndex, i⟩ = some record → ∀ k < i, g.writes owner k = 1
  writes : ∀ {i}, Written g rows ⟨owner.chunkIndex, i⟩ → g.writes owner i = 1
  noWrites : ∀ {i}, ¬ Written g rows ⟨owner.chunkIndex, i⟩ → g.writes owner i = 0
  recorded : ∀ {count}, child.updatedRowCount = some count → ∀ k < count, g.writes owner k = 1

/-- A plan that can still write: its chunk is pending and its record sent. -/
structure Sent (r : Router) (call : PlanCall) : Prop where
  pending : r.store.Pending call.chunk
  record : ∃ record, r.rows call.key = some record ∧ record.mutationId = call.mutationId ∧
    record.chunk = call.chunk ∧ record.shard.isSome

/-- The router fits the shards. -/
structure Router.Inv (g : Graph) (r : Router) : Prop where
  owned : r.store.Owned
  progress : ∀ {owner child}, r.store.receiptAt owner = some child → child.updatedRowCount.isSome →
    child.progress = .canonicalPending ∨ child.progress = .completed
  rows : ∀ {key record}, r.rows key = some record → RowSound g r.store key record
  distinct : ∀ {key key' record record'}, r.rows key = some record → r.rows key' = some record' →
    record.mutationId = record'.mutationId → key = key'
  calls : ∀ call ∈ r.calls, call.mutationId ≤ r.store.counter ∧
    (g.journal call.mutationId = none → Sent r call)
  journal : ∀ {id count}, g.journal id = some count → id ≤ r.store.counter
  pending : ∀ {owner child}, r.store.receiptAt owner = some child → child.PendingUpdate →
    ChunkSound g r.rows owner child
  done : ∀ {owner child count}, r.store.receiptAt owner = some child →
    child.progress = .completed → child.updatedRowCount = some count →
    ∀ i, g.writes owner i = if i < count then 1 else 0
  untouched : ∀ {owner}, ¬ r.store.Admitted owner → ∀ i, g.writes owner i = 0

namespace Router

variable {g : Graph} {r r' : Router} {s' : Store} {env : BulkEnv} {job chunk : Nat}
  {owner : BulkLoadChunkReceiptKey}

theorem inv_fresh : Inv .fresh .fresh where
  owned := Store.owned_fresh
  progress h := by cases h
  rows h := by cases h
  distinct h := by cases h
  calls _ h := by cases h
  journal h := by cases h
  pending h := by cases h
  done h := by cases h
  untouched _ _ := rfl

/-- The record of a row of a chunk that has its receipt names the chunk. -/
theorem Inv.chunk_eq (h : r.Inv g) (hchild : r.store.receiptAt owner = some child)
    (hrecord : r.rows ⟨owner.chunkIndex, i⟩ = some record) : record.chunk = owner := by
  obtain ⟨parent, hparent, hid⟩ := h.owned.current hchild
  have hrow := h.rows hrecord
  have hjob := (hrow.job hparent).trans hid
  have hchunk := hrow.chunk
  cases hrecord' : record.chunk
  cases owner
  simp_all

/-! ## Changes of the store -/

/-- The store moves on and the rows stay. -/
theorem Inv.withStore (h : r.Inv g) (howned : s'.Owned) (hlater : r.store.Later s')
    (hprogress : ∀ {owner child}, s'.receiptAt owner = some child → child.updatedRowCount.isSome →
      child.progress = .canonicalPending ∨ child.progress = .completed)
    (hcurrent : ∀ {parent'}, s'.record = some parent' →
      (∃ parent, r.store.record = some parent ∧ parent.mutationId = parent'.mutationId) ∨
        ∀ key, r.rows key = none)
    (hpending : ∀ {owner child}, s'.receiptAt owner = some child → child.PendingUpdate →
      ChunkSound g r.rows owner child)
    (hdone : ∀ {owner child count}, s'.receiptAt owner = some child →
      child.progress = .completed → child.updatedRowCount = some count →
      ∀ i, g.writes owner i = if i < count then 1 else 0)
    (hcalls : ∀ call ∈ r.calls, g.journal call.mutationId = none → s'.Pending call.chunk) :
    Inv g { r with store := s' } where
  owned := howned
  progress := hprogress
  rows {key record} hrecord := by
    have hrow := h.rows hrecord
    refine { hrow with
      job := fun {parent'} hparent' => ?_
      id_le := hrow.id_le.trans hlater.counter
      admitted := hlater.admitted hrow.admitted }
    rcases hcurrent hparent' with ⟨parent, hparent, hid⟩ | hnone
    · exact (hrow.job hparent).trans hid
    · cases hrecord.symm.trans (hnone key)
  distinct := h.distinct
  calls call hcall := by
    obtain ⟨hle, hsent⟩ := h.calls call hcall
    exact ⟨hle.trans hlater.counter, fun hnone => ⟨hcalls call hcall hnone, (hsent hnone).record⟩⟩
  journal hentry := (h.journal hentry).trans hlater.counter
  pending := hpending
  done := hdone
  untouched hnot := h.untouched fun ha => hnot (hlater.admitted ha)

/-- What may be told when a chunk is completed: the rows before `count` are
written, the others not, and no plan of the chunk can write any more. -/
structure Closed (g : Graph) (r : Router) (owner : BulkLoadChunkReceiptKey) (count : Nat) : Prop where
  writes : ∀ i, g.writes owner i = if i < count then 1 else 0
  calls : ∀ call ∈ r.calls, call.chunk = owner → g.journal call.mutationId ≠ none

variable (h : r.Inv g)

include h

/-- A receipt moves: the row count it is told is one of written rows, and a
completion is told all of them. -/
theorem Inv.move (hmove : Store.Moved env told ends r.store job chunk s')
    (htold : ∀ {count}, told = some count → r.store.Pending ⟨job, chunk⟩ →
      (∀ k < count, g.writes ⟨job, chunk⟩ k = 1) ∧ (ends → Closed g r ⟨job, chunk⟩ count)) :
    Inv g { r with store := s' } := by
  have howned := h.owned.move hmove
  have hlater := Store.later_move hmove
  obtain ⟨record, child, child', record', hrecord, hjob, -, -, hchild, hstep, hvalid, hid, -, rfl⟩ :=
    hmove
  have hchild : r.store.receiptAt ⟨job, chunk⟩ = some child := hchild
  generalize record'.coordinator = c' at hstep
  refine h.withStore howned hlater (fun {owner child''} hchild'' hupdate => ?_)
    (fun {parent'} hparent' => .inl ⟨record, hrecord, ?_⟩)
    (fun {owner child''} hchild'' hpending => ?_) (fun {owner child'' count} hchild'' hdone hcount => ?_)
    fun call hcall hnone => ?_
  · rw [Store.receiptAt_putReceipt] at hchild''
    split_ifs at hchild''
    · cases hchild''
      exact BulkLoadChunkReceipt.progress_of_validate env hvalid hupdate
    · exact h.progress hchild'' hupdate
  · cases hparent'
    exact hjob.trans hid.symm
  · rw [Store.receiptAt_putReceipt] at hchild''
    split_ifs at hchild'' with howner
    · cases hchild''
      subst howner
      obtain ⟨hbefore, hids⟩ := hstep.pending_of hpending
      have hsound := h.pending hchild hbefore
      refine { hsound with ids := hids ▸ hsound.ids, recorded := fun {count} hcount => ?_ }
      cases hstep with
      | same => exact hsound.recorded hcount
      | moves _ _ _ hcount' =>
        rcases hcount' with hcount' | ⟨-, -, htold'⟩
        · exact hsound.recorded (hcount'.symm.trans hcount)
        · exact (htold (htold'.symm.trans hcount) ⟨child, hchild, hbefore⟩).1
      | completes _ _ hdone => exact absurd hdone hpending.pending
      | repeats => exact hsound.recorded hcount
    · exact h.pending hchild'' hpending
  · rw [Store.receiptAt_putReceipt] at hchild''
    split_ifs at hchild'' with howner
    · cases hchild''
      subst howner
      cases hstep with
      | same | repeats => exact h.done hchild hdone hcount
      | moves _ hstill => exact absurd hdone hstill
      | completes hending hbefore _ hcount' =>
        rcases hcount' with ⟨hretiring, hcount'⟩ | ⟨hupdate, -, htold'⟩
        · rcases h.progress hchild (hcount' ▸ hcount ▸ rfl) with hp | hp <;> rw [hp] at hretiring <;>
            cases hretiring
        · exact ((htold (htold'.symm.trans hcount) ⟨child, hchild, hupdate, hbefore⟩).2 hending).writes
    · exact h.done hchild'' hdone hcount
  · obtain ⟨child'', hchild'', hpending⟩ := ((h.calls call hcall).2 hnone).pending
    unfold Store.Pending
    rw [Store.receiptAt_putReceipt]
    split_ifs with howner
    · rw [howner, hchild] at hchild''
      cases hchild''
      refine ⟨child', rfl, ?_⟩
      cases hstep with
      | same => exact hpending
      | moves _ hstill _ hcount =>
        refine ⟨?_, hstill⟩
        rcases hcount with hcount | ⟨-, htold', hcount⟩
        · exact hcount ▸ hpending.update
        · exact hcount ▸ htold'
      | completes hending hbefore _ hcount =>
        rcases hcount with ⟨hretiring, -⟩ | ⟨hupdate, htold', -⟩
        · rcases h.progress hchild hpending.update with hp | hp <;> rw [hp] at hretiring <;>
            cases hretiring
        · obtain ⟨count, htold'⟩ := Option.isSome_iff_exists.mp htold'
          exact absurd hnone (((htold htold' ⟨child, hchild, hpending⟩).2 hending).calls call hcall howner)
      | repeats => exact hpending
    · exact ⟨child'', hchild'', hpending⟩

/-- A chunk that is not admitted has no rows. -/
theorem Inv.rows_eq_none (hrecord : r.store.record = some record) (hjob : record.mutationId = job)
    (hnot : ¬ r.store.Admitted ⟨job, chunk⟩) (i : Nat) : r.rows ⟨chunk, i⟩ = none := by
  by_contra hsome
  obtain ⟨row, hrow⟩ := Option.ne_none_iff_exists'.mp hsome
  have hsound := h.rows hrow
  have howner : row.chunk = ⟨job, chunk⟩ := by
    have hrowJob := hsound.job hrecord
    have hrowChunk := hsound.chunk
    cases hc : row.chunk
    simp_all
  exact hnot (howner ▸ hsound.admitted)

theorem Inv.admission (hadmission : Store.Admission r.store job chunk s') :
    Inv g { r with store := s' } := by
  have howned := h.owned.admission hadmission
  have hlater := Store.later_admission hadmission
  cases hadmission with
  | same => exact h
  | @admits record record' child hrecord hjob _ _ hgc habsent hpending hcount hid _ _ =>
    have hnot := Store.not_admitted_of_absent hrecord hjob hgc habsent
    refine h.withStore howned hlater (fun {owner child'} hchild' hupdate => ?_)
      (fun {parent'} hparent' => .inl ⟨record, hrecord, ?_⟩) (fun {owner child'} hchild' hpending' => ?_)
      (fun {owner child' count} hchild' hdone => ?_) fun call hcall hnone => ?_
    · rw [Store.receiptAt_putReceipt] at hchild'
      split_ifs at hchild'
      · cases hchild'
        exact .inl hpending
      · exact h.progress hchild' hupdate
    · cases hparent'
      exact hjob.trans hid.symm
    · rw [Store.receiptAt_putReceipt] at hchild'
      split_ifs at hchild' with howner
      · cases hchild'
        subst howner
        have hrows : ∀ i, r.rows ⟨chunk, i⟩ = none := h.rows_eq_none hrecord hjob hnot
        rcases hcount with hinsert | ⟨hzero, hids⟩
        · have := hpending'.update
          simp [hinsert] at this
        obtain ⟨ids, hids⟩ := Option.isSome_iff_exists.mp hids
        exact
          { ids := ⟨ids, hids, fun {i row} hrow => by simp [hrows i] at hrow⟩
            order := fun {i row} hrow => by simp [hrows i] at hrow
            writes := fun {i} hwritten => by simp [Written, hrows i] at hwritten
            noWrites := fun {i} _ => h.untouched hnot i
            recorded := fun {count} hcount k hk => by simp_all }
      · exact h.pending hchild' hpending'
    · rw [Store.receiptAt_putReceipt] at hchild'
      split_ifs at hchild'
      · cases hchild'
        rw [hpending] at hdone
        cases hdone
      · exact h.done hchild' hdone
    · obtain ⟨child', hchild', hpending'⟩ := ((h.calls call hcall).2 hnone).pending
      unfold Store.Pending
      rw [Store.receiptAt_putReceipt, if_neg]
      · exact ⟨child', hchild', hpending'⟩
      rintro howner
      rw [howner] at hchild'
      cases hchild'.symm.trans habsent

/-- A step of the store, and no record is left when a job is started. -/
theorem Inv.step (hstep : Store.Step r.store s')
    (hstart : r.store.record = none → s'.record ≠ none → ∀ key, r.rows key = none) :
    Inv g { r with store := s' } := by
  have howned := h.owned.step hstep
  have hlater := Store.later_step hstep
  -- Receipts are taken away when they are completed, and nothing is added.
  have hreceipts : ∀ owner child, s'.receiptAt owner = some child → r.store.receiptAt owner = some child := by
    cases hstep with
    | collects =>
      intro owner child hchild
      unfold Store.receiptAt at hchild ⊢
      rw [Store.receipt_putRecord, Store.receipt_removeReceipts] at hchild
      split_ifs at hchild
      exact hchild
    | _ => exact fun _ _ => id
  have hkept : ∀ owner child, r.store.receiptAt owner = some child → child.PendingUpdate →
      s'.receiptAt owner = some child := by
    cases hstep with
    | collects _ _ hrows =>
      intro owner child hchild hpending
      unfold Store.receiptAt at hchild ⊢
      rw [Store.receipt_putRecord, Store.receipt_removeReceipts, if_neg, hchild]
      rintro ⟨hjob, hmem⟩
      obtain ⟨row, hrow, hkey⟩ := List.mem_map.mp hmem
      have hstored := hrows.stored row hrow
      rw [hkey, ← hjob, hchild] at hstored
      cases hstored
      exact hpending.pending (hrows.completed row hrow)
    | _ => exact fun _ _ hchild _ => hchild
  refine h.withStore howned hlater (fun hchild => h.progress (hreceipts _ _ hchild)) ?_
    (fun hchild => h.pending (hreceipts _ _ hchild)) (fun hchild => h.done (hreceipts _ _ hchild))
    fun call hcall hnone => ?_
  · intro parent' hparent'
    cases hstep with
    | same | allocates => exact .inl ⟨parent', hparent', rfl⟩
    | starts hfree => exact .inr (hstart hfree (by simp))
    | ends hrecord hid =>
      cases hparent'
      exact .inl ⟨_, hrecord, hid.symm⟩
    | collects hrecord | rewinds hrecord =>
      cases hparent'
      exact .inl ⟨_, hrecord, rfl⟩
    | forgets => cases hparent'
  · obtain ⟨child, hchild, hpending⟩ := ((h.calls call hcall).2 hnone).pending
    exact ⟨child, hkept _ _ hchild hpending, hpending⟩

/-! ## Changes of the rows -/

/-- The record of a row moves on under its id. -/
theorem Inv.putRow (hrecord : r.rows key = some record)
    (hid : record'.mutationId = record.mutationId) (hchunk : record'.chunk = record.chunk)
    (hsound : RowSound g r.store key record')
    (hshard : g.journal record.mutationId = none → record.shard.isSome → record'.shard.isSome) :
    (r.putRow key record').Inv g := by
  have hrows : ∀ {key' row'}, (r.putRow key record').rows key' = some row' →
      ∃ row, r.rows key' = some row ∧ row.mutationId = row'.mutationId ∧ row.chunk = row'.chunk := by
    intro key' row' hrow'
    rw [rows_putRow] at hrow'
    split_ifs at hrow' with hkey
    · cases hrow'
      exact ⟨record, hkey ▸ hrecord, hid.symm, hchunk.symm⟩
    · exact ⟨row', hrow', rfl, rfl⟩
  have hwritten : ∀ {key'}, Written g (r.putRow key record').rows key' ↔ Written g r.rows key' := by
    intro key'
    unfold Written
    rw [rows_putRow]
    split_ifs with hkey
    · subst hkey
      simp [hrecord, hid]
    · rfl
  refine { h with
    rows := fun {key' row'} hrow' => ?_
    distinct := fun {key₁ key₂ row₁ row₂} h₁ h₂ heq => ?_
    calls := fun call hcall => ⟨(h.calls call hcall).1, fun hnone => ?_⟩
    pending := fun {owner child} hchild hpending => ?_ }
  · rw [rows_putRow] at hrow'
    split_ifs at hrow' with hkey
    · cases hrow'
      exact hkey ▸ hsound
    · exact h.rows hrow'
  · obtain ⟨row₁', hrow₁, hid₁, -⟩ := hrows h₁
    obtain ⟨row₂', hrow₂, hid₂, -⟩ := hrows h₂
    exact h.distinct hrow₁ hrow₂ (hid₁.trans (heq.trans hid₂.symm))
  · obtain ⟨hpending, row, hrow, hrowId, hrowChunk, hrowShard⟩ := (h.calls call hcall).2 hnone
    refine ⟨hpending, ?_⟩
    rw [rows_putRow]
    split_ifs with hkey
    · rw [hkey, hrecord] at hrow
      cases hrow
      exact ⟨record', rfl, hid.trans hrowId, hchunk.trans hrowChunk,
        hshard (by rw [hrowId]; exact hnone) hrowShard⟩
    · exact ⟨row, hrow, hrowId, hrowChunk, hrowShard⟩
  · have hc := h.pending hchild hpending
    obtain ⟨ids, hids, hlt⟩ := hc.ids
    exact
      { ids := ⟨ids, hids, fun hrow => let ⟨_, hrow', _⟩ := hrows hrow; hlt hrow'⟩
        order := fun hrow => let ⟨_, hrow', _⟩ := hrows hrow; hc.order hrow'
        writes := fun hw => hc.writes (hwritten.mp hw)
        noWrites := fun hw => hc.noWrites fun hw' => hw (hwritten.mpr hw')
        recorded := hc.recorded }

/-- A call on a row's record, with a count that is in the journal. -/
theorem Inv.rowMove (hentry : ∀ count, entry = some count → g.journal mutationId = some count)
    (hmove : RowMove entry r key mutationId r') : r'.Inv g := by
  cases hmove with
  | same => exact h
  | @moves record record' hrecord hid hnext =>
    obtain ⟨hid', hchunk⟩ := hnext.id_chunk
    have hrow := h.rows hrecord
    -- What does not depend on the progress of the record.
    have hsound := @RowSound.mk g r.store key record' (hchunk ▸ hrow.chunk)
      (fun hparent => hchunk ▸ hrow.job hparent) (hid' ▸ hrow.id_le) (hchunk ▸ hrow.admitted)
    cases hnext with
    | leases _ _ hshard hcount =>
      refine h.putRow hrecord hid' hchunk (hsound ?_ ?_ ?_ ?_) (by simp [hshard])
      · rw [hshard, hcount, hid']
        exact hrow.unsent
      · rw [hshard, hid']
        exact hrow.captured
      · rw [hshard]
        exact hrow.notAdvanced
      · rw [hcount, hid']
        exact hrow.completed
    | envelops _ _ _ hshard hcount =>
      refine h.putRow hrecord hid' hchunk (hsound ?_ ?_ ?_ ?_) (by simp [hshard])
      · simp [hshard]
      · rintro shard hshard' hcompleted
        cases hshard.symm.trans hshard'
        cases hcompleted
      · rintro shard hshard'
        cases hshard.symm.trans hshard'
        rfl
      · simp [hcount]
    | @captures shard count _ _ hread hsent htold =>
      have hjournal := hentry count hread
      rw [← hid] at hjournal
      refine h.putRow hrecord hid' hchunk (hsound ?_ ?_ ?_ ?_) (by simp [hjournal])
      · rcases htold with ⟨hshard, -⟩ | ⟨-, hcount⟩
        · simp [hshard]
        · simp [hcount]
      · rintro shard' hshard' -
        rcases htold with ⟨hshard, -⟩ | ⟨hshard, -⟩
        · cases hshard.symm.trans hshard'
          exact hid' ▸ hjournal
        · cases hshard.symm.trans hshard'
      · rintro shard' hshard'
        rcases htold with ⟨hshard, -⟩ | ⟨hshard, -⟩
        · cases hshard.symm.trans hshard'
          exact (hrow.notAdvanced hsent : shard.projectionAdvanced = false)
        · cases hshard.symm.trans hshard'
      · rintro count' hcount'
        rcases htold with ⟨-, hcount⟩ | ⟨-, hcount⟩
        · exact hid' ▸ hrow.completed (hcount.symm.trans hcount')
        · cases hcount.symm.trans hcount'
          exact hid' ▸ hjournal
    | @publishes shard _ _ hsent hcompleted hshard hcount =>
      have hjournal := hrow.captured hsent hcompleted
      refine h.putRow hrecord hid' hchunk (hsound ?_ ?_ ?_ ?_) (by simp [hjournal])
      · simp [hcount]
      · simp [hshard]
      · simp [hshard]
      rintro count' hcount'
      cases hcount.symm.trans hcount'
      exact hid' ▸ hjournal

/-- A record is made for the next row of a chunk. -/
theorem Inv.makeRow (hfree : r.rows ⟨owner.chunkIndex, i⟩ = none)
    (hchild : r.store.receiptAt owner = some child)
    (hids : child.resolvedUpdateVertexIds = some ids) (hlt : i < ids.length)
    (horder : ∀ k < i, g.writes owner k = 1) (hid : record.mutationId = r.store.counter + 1)
    (hchunk : record.chunk = owner) (hshard : record.shard = none)
    (hcount : record.completedRowCount = none) :
    ({ r with store := { r.store with counter := r.store.counter + 1 } }.putRow
      ⟨owner.chunkIndex, i⟩ record).Inv g := by
  have hstep : Inv g { r with store := { r.store with counter := r.store.counter + 1 } } :=
    h.step .allocates fun hnone hsome => absurd hnone hsome
  have hfresh : g.journal record.mutationId = none := by
    by_contra hsome
    obtain ⟨count, hentry⟩ := Option.ne_none_iff_exists'.mp hsome
    have := h.journal hentry
    omega
  have hnew : ∀ {key row}, r.rows key = some row → row.mutationId ≠ record.mutationId := by
    intro key row hrow heq
    have := (h.rows hrow).id_le
    omega
  have hrows : ∀ {key row}, r.rows key = some row → key ≠ ⟨owner.chunkIndex, i⟩ := by
    rintro key row hrow rfl
    cases hrow.symm.trans hfree
  have hwritten : ∀ {key}, Written g (r.putRow ⟨owner.chunkIndex, i⟩ record).rows key ↔
      Written g r.rows key := by
    intro key
    unfold Written
    rw [rows_putRow]
    split_ifs with hkey
    · subst hkey
      simp [hfree, hfresh]
    · rfl
  obtain ⟨parent, hparent, hparentId⟩ := h.owned.current hchild
  have hsound : RowSound g { r.store with counter := r.store.counter + 1 } ⟨owner.chunkIndex, i⟩ record :=
    { chunk := by rw [hchunk]
      job := fun {parent'} hparent' => by
        cases hparent.symm.trans hparent'
        rw [hchunk, hparentId]
      id_le := hid.le
      admitted := hchunk ▸ hstep.owned.admitted hchild
      unsent := fun _ _ => hfresh
      captured := fun hsome => by cases hshard.symm.trans hsome
      notAdvanced := fun hsome => by cases hshard.symm.trans hsome
      completed := fun hsome => by cases hcount.symm.trans hsome }
  refine { hstep with
    rows := fun {key row} hrow => ?_
    distinct := fun {key₁ key₂ row₁ row₂} h₁ h₂ heq => ?_
    calls := fun call hcall => ⟨(hstep.calls call hcall).1, fun hnone => ?_⟩
    pending := fun {owner' child'} hchild' hpending' => ?_ }
  · rw [rows_putRow] at hrow
    split_ifs at hrow with hkey
    · cases hrow
      exact hkey ▸ hsound
    · exact hstep.rows hrow
  · rw [rows_putRow] at h₁ h₂
    split_ifs at h₁ h₂ with hkey₁ hkey₂ hkey₂
    · rw [hkey₁, hkey₂]
    · cases h₁
      exact absurd heq.symm (hnew h₂)
    · cases h₂
      exact absurd heq (hnew h₁)
    · exact h.distinct h₁ h₂ heq
  · obtain ⟨hcallPending, row, hrow, hsent⟩ := (hstep.calls call hcall).2 hnone
    refine ⟨hcallPending, row, ?_, hsent⟩
    rw [rows_putRow, if_neg (hrows hrow)]
    exact hrow
  · have hc := h.pending hchild' hpending'
    obtain ⟨ids', hids', hlt'⟩ := hc.ids
    -- A record of the chunk's index is the chunk's own, whichever job is current.
    have howner : owner'.chunkIndex = owner.chunkIndex → owner' = owner := by
      intro hindex
      obtain ⟨parent', hparent', hid'⟩ := h.owned.current hchild'
      cases hparent.symm.trans hparent'
      cases owner
      cases owner'
      simp_all
    have hcases : ∀ {k row}, (r.putRow ⟨owner.chunkIndex, i⟩ record).rows ⟨owner'.chunkIndex, k⟩ = some row →
        r.rows ⟨owner'.chunkIndex, k⟩ = some row ∨ owner' = owner ∧ k = i := by
      intro k row hrow
      rw [rows_putRow] at hrow
      split_ifs at hrow with hkey
      · injection hkey with hindex hk
        exact .inr ⟨howner hindex, hk⟩
      · exact .inl hrow
    exact {
      ids := ⟨ids', hids', fun {k row} hrow => by
        rcases hcases hrow with hrow | ⟨rfl, rfl⟩
        · exact hlt' hrow
        cases hchild.symm.trans hchild'
        cases hids.symm.trans hids'
        exact hlt⟩
      order := fun {k row} hrow => by
        rcases hcases hrow with hrow | ⟨rfl, rfl⟩
        · exact hc.order hrow
        · exact horder
      writes := fun hw => hc.writes (hwritten.mp hw)
      noWrites := fun hw => hc.noWrites fun hw' => hw (hwritten.mpr hw')
      recorded := hc.recorded }

/-- A plan is sent. -/
theorem Inv.send (hgate : r.scalarDispatchGate key mutationId = .ok .dispatch) :
    (r.send key mutationId).Inv g := by
  obtain ⟨record, shard, hrecord, hid, hshard, hpending⟩ := scalarDispatchGate_eq_dispatch hgate
  have hsend : r.send key mutationId =
      { r with calls := r.calls ++ [⟨key, record.chunk, mutationId⟩] } := by
    simp [Router.send, hrecord]
  rw [hsend]
  refine { h with calls := fun call hcall => ?_ }
  rcases List.mem_append.mp hcall with hcall | hcall
  · obtain ⟨hle, hsent⟩ := h.calls call hcall
    exact ⟨hle, fun hnone => ⟨(hsent hnone).pending, (hsent hnone).record⟩⟩
  cases List.mem_singleton.mp hcall
  refine ⟨hid ▸ (h.rows hrecord).id_le, fun _ => ⟨Store.replayRequired_iff.mp hpending, ?_⟩⟩
  exact ⟨record, hrecord, hid, rfl, by simp [hshard]⟩

/-- A record whose chunk is not pending is evicted. -/
theorem Inv.evict : (r.evict key now).Inv g := by
  unfold Router.evict
  split
  · exact h
  next record hrecord =>
  split
  next hexpired =>
    have hdone : ¬ r.store.Pending record.chunk := by
      rw [← Store.replayRequired_iff]
      simpa using hexpired.2
    have hrows : ∀ {key' row}, Function.update r.rows key none key' = some row →
        r.rows key' = some row := by
      intro key' row hrow
      by_cases hkey : key' = key
      · simp [hkey] at hrow
      · simpa [hkey] using hrow
    refine { h with
      rows := fun hrow => h.rows (hrows hrow)
      distinct := fun h₁ h₂ => h.distinct (hrows h₁) (hrows h₂)
      calls := fun call hcall => ⟨(h.calls call hcall).1, fun hnone => ?_⟩
      pending := fun {owner child} hchild hpending => ?_ }
    · obtain ⟨hpending, row, hrow, hid, hchunk, hshard⟩ := (h.calls call hcall).2 hnone
      have hkey : call.key ≠ key := by
        rintro hkey
        cases hrecord.symm.trans (hkey ▸ hrow)
        exact hdone (hchunk ▸ hpending)
      exact ⟨hpending, row, by simpa [hkey] using hrow, hid, hchunk, hshard⟩
    have hc := h.pending hchild hpending
    obtain ⟨ids, hids, hlt⟩ := hc.ids
    have hkept : ∀ i, Function.update r.rows key none ⟨owner.chunkIndex, i⟩ =
        r.rows ⟨owner.chunkIndex, i⟩ := by
      intro i
      refine Function.update_of_ne ?_ _ _
      rintro rfl
      exact hdone (h.chunk_eq hchild hrecord ▸ ⟨child, hchild, hpending⟩)
    refine { hc with
      ids := ⟨ids, hids, fun hrow => hlt (hrows hrow)⟩
      order := fun hrow => hc.order (hrows hrow)
      writes := fun {i} hw => hc.writes ?_
      noWrites := fun {i} hw => hc.noWrites ?_ }
    · simpa only [Written, hkept] using hw
    · simpa only [Written, hkept] using hw
  · exact h

end Router

/-! ## Deliveries -/

namespace Graph

/-- A plan gets its entry in the journal, with the number of its targets. -/
def enter (g : Graph) (call : PlanCall) (count : Nat) : Graph where
  journal := Function.update g.journal call.mutationId (some count)
  writes owner k :=
    if owner = call.chunk ∧ k = call.key.ordinal then g.writes owner k + count else g.writes owner k

theorem writes_enter {g : Graph} (owner : BulkLoadChunkReceiptKey) (k : Nat) :
    (g.enter call count).writes owner k =
      if owner = call.chunk ∧ k = call.key.ordinal then g.writes owner k + count else g.writes owner k :=
  rfl

/-- An entry adds no write to another row. -/
theorem writes_enter_of_ne {g : Graph} {owner : BulkLoadChunkReceiptKey} {k : Nat}
    (h : owner ≠ call.chunk ∨ k ≠ call.key.ordinal) :
    (g.enter call count).writes owner k = g.writes owner k := by
  rw [writes_enter, if_neg]
  rintro ⟨rfl, rfl⟩
  simp at h

theorem deliver_eq (g : Graph) (call : PlanCall) (delivery : Delivery) :
    g.deliver call delivery = g ∨ g.journal call.mutationId = none ∧
      ∃ count, (count = 0 ∨ count = 1) ∧ g.deliver call delivery = g.enter call count := by
  cases delivery with
  | failed => exact .inl rfl
  | noTarget =>
    unfold deliver
    split_ifs with hentry
    · exact .inl rfl
    · exact .inr ⟨by simpa using hentry, 0, .inl rfl, by simp [enter]⟩
  | applied =>
    unfold deliver
    dsimp only
    split_ifs with hentry
    · exact .inl rfl
    refine .inr ⟨by simpa using hentry, 1, .inr rfl, ?_⟩
    unfold enter
    congr 1
    funext owner k
    by_cases howner : owner = call.chunk <;> by_cases hk : k = call.key.ordinal <;>
      simp [howner, hk]

theorem journal_enter_of_ne {g : Graph} {id : Nat} (h : id ≠ call.mutationId) :
    (g.enter call count).journal id = g.journal id :=
  Function.update_of_ne h _ _

@[simp] theorem journal_enter_self {g : Graph} :
    (g.enter call count).journal call.mutationId = some count :=
  Function.update_self _ _ _

/-- An entry that is there stays. -/
theorem journal_enter {g : Graph} {id : Nat} (hnone : g.journal call.mutationId = none)
    (h : g.journal id = some entry) : (g.enter call count).journal id = some entry := by
  rw [journal_enter_of_ne, h]
  rintro rfl
  cases hnone.symm.trans h

end Graph

namespace Router

variable {g : Graph} {r : Router} {call : PlanCall} {count : Nat}

/-- Fewer plans are on their way. -/
theorem Inv.withCalls {calls : List PlanCall} (h : r.Inv g) (hcalls : ∀ call ∈ calls, call ∈ r.calls) :
    Inv g { r with calls } :=
  { h with
    calls := fun call hcall =>
      ⟨(h.calls call (hcalls call hcall)).1, fun hnone =>
        ⟨((h.calls call (hcalls call hcall)).2 hnone).pending,
          ((h.calls call (hcalls call hcall)).2 hnone).record⟩⟩ }

/-- The key of a plan names the chunk it is for. -/
theorem Inv.key_eq (h : r.Inv g) (hsent : Sent r call) :
    call.key = ⟨call.chunk.chunkIndex, call.key.ordinal⟩ := by
  obtain ⟨record, hrecord, -, hchunk, -⟩ := hsent.record
  rw [← hchunk, (h.rows hrecord).chunk]

/-- The number of a plan is the number of its own row only. -/
theorem Inv.mutationId_ne (h : r.Inv g) (hsent : Sent r call) (hrow : r.rows key = some row)
    (hne : key ≠ call.key) : row.mutationId ≠ call.mutationId := by
  obtain ⟨record, hrecord, hid, -⟩ := hsent.record
  exact fun heq => hne (h.distinct hrow hrecord (heq.trans hid.symm))

/-- A row that gets its entry was not written. -/
theorem Inv.writes_eq_zero (h : r.Inv g) (hsent : Sent r call)
    (hnone : g.journal call.mutationId = none) : g.writes call.chunk call.key.ordinal = 0 := by
  have hkey := h.key_eq hsent
  obtain ⟨⟨child, hchild, hpending⟩, record, hrecord, hid, -⟩ := hsent
  refine (h.pending hchild hpending).noWrites ?_
  rintro ⟨record', hrecord', hentry⟩
  rw [← hkey, hrecord] at hrecord'
  cases hrecord'
  rw [hid, hnone] at hentry
  cases hentry

/-- An entry is seen under its own row, -/
theorem written_enter_self (hsent : Sent r call) :
    Written (g.enter call count) r.rows call.key ↔ count = 1 := by
  obtain ⟨record, hrecord, hid, -⟩ := hsent.record
  simp [Written, hrecord, hid]

/-- and under no other. -/
theorem Inv.written_enter_of_ne (h : r.Inv g) (hsent : Sent r call) (hne : key ≠ call.key) :
    Written (g.enter call count) r.rows key ↔ Written g r.rows key := by
  refine exists_congr fun row => and_congr_right fun hrow => ?_
  rw [Graph.journal_enter_of_ne (h.mutationId_ne hsent hrow hne)]

/-- A row of a chunk that has its receipt is the plan's own, or has another key and
another place among the writes. -/
theorem Inv.row_cases (h : r.Inv g) (hsent : Sent r call)
    (hchild : r.store.receiptAt owner = some child) (i : Nat) :
    owner = call.chunk ∧ i = call.key.ordinal ∨
      (⟨owner.chunkIndex, i⟩ : RowKey) ≠ call.key ∧
        (owner ≠ call.chunk ∨ i ≠ call.key.ordinal) := by
  have hkey := h.key_eq hsent
  obtain ⟨record, hrecord, -, hchunk, -⟩ := hsent.record
  by_cases hsame : (⟨owner.chunkIndex, i⟩ : RowKey) = call.key
  · left
    rw [hkey] at hsame
    injection hsame with hindex hi
    -- two chunks of one index with a row each are the same chunk
    have howner := h.chunk_eq hchild (i := call.key.ordinal) (by rw [hindex, ← hkey, hrecord])
    exact ⟨howner.symm.trans hchunk, hi⟩
  · right
    refine ⟨hsame, ?_⟩
    by_contra hboth
    push Not at hboth
    exact hsame (by rw [hboth.1, hboth.2, ← hkey])

/-- A row that was written stays written once. -/
theorem Inv.writes_enter_one (h : r.Inv g) (hsent : Sent r call)
    (hnone : g.journal call.mutationId = none) (hk : g.writes owner k = 1) :
    (g.enter call count).writes owner k = 1 := by
  rw [Graph.writes_enter_of_ne, hk]
  by_contra hsame
  push Not at hsame
  rw [hsame.1, hsame.2, h.writes_eq_zero hsent hnone] at hk
  cases hk

/-- The rows of a pending chunk when a plan gets its entry. -/
theorem Inv.chunkSound_enter (h : r.Inv g) (hcount : count = 0 ∨ count = 1) (hsent : Sent r call)
    (hnone : g.journal call.mutationId = none) (hchild : r.store.receiptAt owner = some child)
    (hc : ChunkSound g r.rows owner child) :
    ChunkSound (g.enter call count) r.rows owner child := by
  have hentered : (g.enter call count).writes call.chunk call.key.ordinal = count := by
    simp [Graph.writes_enter, h.writes_eq_zero hsent hnone]
  refine { hc with
    order := fun hrow k hk => h.writes_enter_one hsent hnone (hc.order hrow k hk)
    writes := fun {i} hw => ?_
    noWrites := fun {i} hw => ?_
    recorded := fun hrecorded k hk => h.writes_enter_one hsent hnone (hc.recorded hrecorded k hk) }
  · rcases h.row_cases hsent hchild i with ⟨rfl, rfl⟩ | ⟨hne, hne'⟩
    · rw [← h.key_eq hsent] at hw
      rw [hentered, (written_enter_self hsent).mp hw]
    · rw [Graph.writes_enter_of_ne hne']
      exact hc.writes ((h.written_enter_of_ne hsent hne).mp hw)
  · rcases h.row_cases hsent hchild i with ⟨rfl, rfl⟩ | ⟨hne, hne'⟩
    · rw [← h.key_eq hsent, written_enter_self hsent] at hw
      rw [hentered]
      exact hcount.resolve_right hw
    · rw [Graph.writes_enter_of_ne hne']
      exact hc.noWrites fun hw' => hw ((h.written_enter_of_ne hsent hne).mpr hw')

/-- A plan that can write gets its entry. -/
theorem Inv.enter (h : r.Inv g) (hcount : count = 0 ∨ count = 1) (hcall : call ∈ r.calls)
    (hnone : g.journal call.mutationId = none) : r.Inv (g.enter call count) := by
  obtain ⟨hle, hsent⟩ := h.calls call hcall
  replace hsent := hsent hnone
  have ⟨hcallPending, record, hrecord, _, hchunk, hshard⟩ := hsent
  refine { h with
    rows := fun {key row} hrow => ?_
    calls := fun call' hcall' => ⟨(h.calls call' hcall').1, fun hnone' => ?_⟩
    journal := fun {id entry} hentry => ?_
    pending := fun {owner child} hchild hpending =>
      h.chunkSound_enter hcount hsent hnone hchild (h.pending hchild hpending)
    done := fun {owner child total} hchild hdone htotal i => ?_
    untouched := fun {owner} hnot i => ?_ }
  · have hsound := h.rows hrow
    refine { hsound with
      unsent := fun hunsent hcompleted => ?_
      captured := fun hs hc => Graph.journal_enter hnone (hsound.captured hs hc)
      completed := fun hc => Graph.journal_enter hnone (hsound.completed hc) }
    have hne : key ≠ call.key := by
      rintro rfl
      cases hrecord.symm.trans hrow
      simp [hunsent] at hshard
    rw [Graph.journal_enter_of_ne (h.mutationId_ne hsent hrow hne)]
    exact hsound.unsent hunsent hcompleted
  · have hne : call'.mutationId ≠ call.mutationId := by
      intro heq
      rw [heq, Graph.journal_enter_self] at hnone'
      cases hnone'
    exact (h.calls call' hcall').2 (Graph.journal_enter_of_ne hne ▸ hnone')
  · by_cases hid' : id = call.mutationId
    · exact hid' ▸ hle
    · rw [Graph.journal_enter_of_ne hid'] at hentry
      exact h.journal hentry
  · have hne : owner ≠ call.chunk := by
      rintro rfl
      obtain ⟨sent, hsentChild, hsentPending⟩ := hcallPending
      cases hchild.symm.trans hsentChild
      exact hsentPending.pending hdone
    rw [Graph.writes_enter_of_ne (.inl hne)]
    exact h.done hchild hdone htotal i
  · have hne : owner ≠ call.chunk := by
      rintro rfl
      exact hnot (hchunk ▸ (h.rows hrecord).admitted)
    rw [Graph.writes_enter_of_ne (.inl hne)]
    exact h.untouched hnot i

end Router

end Gleaph.Bulk
