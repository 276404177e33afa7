import Gleaph.Bulk.RowRuns

/-!
# Gleaph.Bulk.UpdateRuns

The commands on update chunks keep the rows and the shards together.

An append settles its rows, records the prefix it has found and goes on behind
it; an abort settles them and completes the chunk.  Each run of a command, and
of a task that is resumed, is `Kept`, whatever its calls answer.
-/

namespace Gleaph.Bulk

section Runs

variable {env : SystemEnv} {g : Graph} {r r' : Router} {m : Moment}

/-! ### Update chunks -/

theorem length_resolvedRows (start : Nat) (items ids : List (List UInt8)) :
    (resolvedRows start items ids).length = min (items.length - start) ids.length := by
  simp [resolvedRows]

theorem ordinals_resolvedRows (start : Nat) (items ids : List (List UInt8)) :
    (resolvedRows start items ids).map (·.ordinal) =
      List.range' start (resolvedRows start items ids).length := by
  simp [resolvedRows, Function.comp_def]

variable {chunk now : Nat} {ids : List (List UInt8)} {a : UpdateAppend}
  {existing : BulkLoadChunkReceipt} {outcomes : List UpdateRowOutcome}

/-- An admission that is granted: the chunk is pending with these targets. -/
theorem admitBulkLoadUpdateChild_granted {s s' : Store}
    (h : s.admitBulkLoadUpdateChild env.toBulkEnv job chunk fingerprint (some ids) = .ok (.granted,
      s')) :
    ∃ child, s'.receiptAt ⟨job, chunk⟩ = some child ∧ child.PendingUpdate ∧
      child.resolvedUpdateVertexIds = some ids := by
  obtain ⟨⟨record, c⟩, hparent, h⟩ := bind_inv h
  obtain ⟨-, rfl, -⟩ := Store.openParent_eq_ok hparent
  dsimp only at h
  split at h
  next existing hexisting =>
    split_ifs at h with hconflict hcompleted hids
    · cases h
    obtain ⟨grant, -, h⟩ := bind_inv h
    cases h
    push Not at hconflict
    refine ⟨existing, hexisting, ⟨Option.isSome_iff_ne_none.mpr (by simpa using hconflict.2), ?_⟩,
      not_not.mp hids⟩
    rintro hdone
    simp [hdone, BulkLoadChunkProgress.isCompleted] at hcompleted
  · split_ifs at h
    obtain ⟨childId, -, h⟩ := bind_inv h
    obtain ⟨_, -, h⟩ := bind_inv h
    obtain ⟨admitted, hadmit, h⟩ := bind_inv h
    cases h
    obtain ⟨c', -, -, rfl⟩ := Store.admitChild_eq_ok hadmit
    rw [Store.receiptAt_putReceipt, if_pos rfl]
    refine ⟨_, rfl, ⟨rfl, ?_⟩, rfl⟩
    rintro ⟨⟩

/-- The rows behind a written prefix of the chunk are admitted and run. -/
theorem kept_admitRows {committed : Nat} (h : r.Inv g)
    (hordinals : rows.map (·.ordinal) = List.range' committed rows.length)
    (htotal : committed ≤ identities.length → committed + rows.length = identities.length)
    (hwritten : ∀ {store}, r.store.Later store → store.Pending ⟨a.job, a.chunk⟩ →
      ∀ k < committed, g.writes ⟨a.job, a.chunk⟩ k = 1) :
    Kept g r (admitRows env r a m committed unresolved identities rows) := by
  unfold admitRows
  split
  · exact kept_fail h
  next hok =>
    have hadmission := Store.admitBulkLoadUpdateChild_admission hok
    split
    · exact kept_fail h
    · exact (kept_ended (h.admission hadmission)).after
        (Router.later_store (Store.later_admission hadmission))
  next store hok =>
  have hadmission := Store.admitBulkLoadUpdateChild_admission hok
  have hlater := Store.later_admission hadmission
  have hinv := h.admission hadmission
  obtain ⟨child, hchild, hpending, hids⟩ := admitBulkLoadUpdateChild_granted hok
  have hcommitted := hwritten hlater ⟨child, hchild, hpending⟩
  -- A written row has a record, so it is one of the targets.
  have hle : committed ≤ identities.length := by
    by_contra hgt
    have hone := hcommitted (committed - 1) (by omega)
    obtain ⟨ids, hids', hlt⟩ := (hinv.pending hchild hpending).ids
    cases hids.symm.trans hids'
    by_cases hw : Written g r.rows ⟨a.chunk, committed - 1⟩
    · obtain ⟨record, hrecord, -⟩ := hw
      have := hlt hrecord
      omega
    · rw [(hinv.pending hchild hpending).noWrites hw] at hone
      cases hone
  have hloop : LoopSound g { r with store }
      ⟨a.job, a.chunk, a.fingerprint, committed + rows.length, unresolved⟩ committed rows :=
    { admitted := hinv.owned.admitted hchild
      ordinals := hordinals
      total := rfl
      ids := fun {child'} hchild' _ => by
        cases hchild.symm.trans hchild'
        exact ⟨identities, hids, (htotal hle).symm⟩
      written := fun _ => hcommitted }
  exact (kept_runRows hinv hloop).after (Router.later_store hlater)

section Append

variable (h : r.Inv g) (hexisting : a.existingChild = some existing)
  (hadmitted : r.store.Admitted ⟨a.job, a.chunk⟩)

include h hexisting hadmitted

theorem kept_resolveUpdates
    (hwritten : r.store.Pending ⟨a.job, a.chunk⟩ →
      ∀ k < settlement.committed, g.writes ⟨a.job, a.chunk⟩ k = 1) :
    Kept g r (resolveUpdates env r a m settlement) := by
  unfold resolveUpdates
  rw [hexisting]
  dsimp only
  split
  · exact kept_fail h
  split
  · exact kept_fail h
  next ids _ =>
  split
  · exact kept_fail h
  next hlength =>
  split
  · exact kept_fail h
  refine kept_admitRows h (ordinals_resolvedRows _ _ _) (fun hle => ?_)
    fun hlater hpending => hwritten (hlater.pending_of hadmitted hpending)
  have hlength : ids.length = a.items.length := not_not.mp hlength
  rw [length_resolvedRows, List.length_drop]
  omega

/-- An append whose chunk is admitted, after its rows are settled. -/
theorem kept_settledAppend (hfound : r.store.Pending ⟨a.job, a.chunk⟩ →
    Found g r.rows ⟨a.job, a.chunk⟩ a.recordedPrefix outcomes) :
    Kept g r (settledAppend env r a m outcomes) := by
  have hwritten : r.store.Pending ⟨a.job, a.chunk⟩ →
      ∀ k < (settleOutcomes a.recordedPrefix outcomes).committed, g.writes ⟨a.job, a.chunk⟩ k = 1 :=
    fun hpending k hk => (hfound hpending).writes_of_lt hk
  unfold settledAppend
  dsimp only
  split
  · exact kept_fail h
  split
  · refine kept_call h fun hok => ?_
    have hmove := Store.recordBulkLoadUpdateProgress_move hok
    have hlater := Store.later_move hmove
    refine (kept_resolveUpdates (h.move hmove ?_) hexisting (hlater.admitted hadmitted)
      fun hpending => hwritten (hlater.pending_of hadmitted hpending)).after (Router.later_store hlater)
    rintro _ ⟨⟩ hpending
    exact ⟨hwritten hpending, nofun⟩
  · exact kept_resolveUpdates h hexisting hadmitted hwritten

/-- An append whose chunk is admitted settles its rows from `ordinal` on. -/
theorem kept_settleAppend
    (hids : ∀ {child}, r.store.receiptAt ⟨a.job, a.chunk⟩ = some child → child.PendingUpdate →
      child.resolvedUpdateVertexIds = existing.resolvedUpdateVertexIds)
    (hfound : r.store.Pending ⟨a.job, a.chunk⟩ → ordinal = a.recordedPrefix + outcomes.length ∧
      Found g r.rows ⟨a.job, a.chunk⟩ a.recordedPrefix outcomes) :
    Kept g r (settleAppend env r a m (settleUpdateRows r.rows a.chunk outcomes ordinal count)) := by
  have hsound : r.store.Pending ⟨a.job, a.chunk⟩ →
      (settleUpdateRows r.rows a.chunk outcomes ordinal count).Sound g r.rows ⟨a.job, a.chunk⟩
        a.recordedPrefix (outcomes.length + count) := by
    rintro hpending
    obtain ⟨rfl, hfound'⟩ := hfound hpending
    obtain ⟨child, hchild, hpending⟩ := hpending
    exact settleUpdateRows_sound h hchild hpending count hfound'
  generalize settleUpdateRows r.rows a.chunk outcomes ordinal count = settling at hsound
  cases settling with
  | failed e => exact kept_fail h
  | reading outcomes' ordinal' mutationId =>
    exact kept_suspended h ⟨existing, hexisting, hadmitted, hids, hsound⟩
  | settled outcomes' => exact kept_settledAppend h hexisting hadmitted fun hpending => (hsound hpending).1

end Append

/-- A chunk without a receipt has no rows, so an append finds none written. -/
theorem settleUpdateRows_absent (hrows : ∀ i, rows ⟨chunk, i⟩ = none) (count : Nat) :
    ∀ {outcomes : List UpdateRowOutcome} {ordinal : Nat},
      settleUpdateRows rows chunk outcomes ordinal count =
        .settled (outcomes ++ List.replicate count .notWritten) := by
  induction count with
  | zero => simp [settleUpdateRows]
  | succ count ih =>
    intro outcomes ordinal
    unfold settleUpdateRows
    rw [hrows, List.replicate_succ]
    simp [classifyUpdateRow, ih]

/-- An append of a new chunk has no rows behind it. -/
theorem kept_settledFresh (h : r.Inv g) (hexisting : a.existingChild = none) :
    Kept g r (settledAppend env r a m (List.replicate count .notWritten)) := by
  have hcommitted : a.recordedPrefix = 0 := by simp [UpdateAppend.recordedPrefix, hexisting]
  have hzero : (settleOutcomes 0 (List.replicate count .notWritten)).committed = 0 := by
    by_contra hne
    rcases settleOutcomes_committed (Nat.pos_of_ne_zero hne) with hlt | ⟨i, -, ho⟩
    · cases hlt
    · cases List.eq_of_mem_replicate (List.mem_of_getElem? ho)
  unfold settledAppend resolveUpdates
  rw [hcommitted, hexisting]
  dsimp only
  split
  · exact kept_fail h
  split
  next hlt => exact absurd hlt (by rw [hzero]; exact lt_irrefl 0)
  split
  · exact kept_fail h
  · exact kept_suspended h hzero

theorem kept_appendBulkLoadUpdates (h : r.Inv g) :
    Kept g r (appendBulkLoadUpdates env r chunk fingerprint items m) := by
  unfold appendBulkLoadUpdates
  split
  · exact kept_fail h
  next record hlookup =>
  have hrecord := Store.lookup_eq_ok.mp hlookup
  split
  · exact kept_fail h
  next c hparent =>
  obtain ⟨rfl, -⟩ := BulkLoadRecord.bulkParent_eq_ok hparent
  dsimp only
  split
  · exact kept_fail h
  next hgc =>
  have hgc : record.coordinator.receiptGcCursor = none := by simpa using hgc
  split
  · exact kept_fail h
  split
  · split
    · exact kept_fail h
    · exact kept_ended h
  cases hexisting : r.store.receipt record.mutationId chunk with
  | none =>
    have hnot := Store.not_admitted_of_absent hrecord rfl hgc hexisting
    rw [settleUpdateRows_absent (h.rows_eq_none hrecord rfl hnot)]
    exact kept_settledFresh h rfl
  | some existing =>
    have hchild : r.store.receiptAt ⟨record.mutationId, chunk⟩ = some existing := hexisting
    refine kept_settleAppend h rfl (h.owned.admitted hchild) (fun hchild' _ => ?_) fun hpending => ?_
    · cases hchild.symm.trans hchild'
      rfl
    refine ⟨rfl, .nil fun k hk => ?_⟩
    obtain ⟨child, hchild', hpending⟩ := hpending
    cases hchild.symm.trans hchild'
    obtain ⟨count, hcount⟩ := Option.isSome_iff_exists.mp hpending.update
    refine (h.pending hchild hpending).recorded hcount k ?_
    simpa [UpdateAppend.recordedPrefix, hcount] using hk

/-! ### Finalize and abort -/

/-- A call that a job takes, not one that starts a job. -/
theorem kept_step (h : r.Inv g) (hstep : Store.Step r.store store) (hrecord : r.store.record ≠ none) :
    Kept g r ({ r with store }, .ended result) :=
  (kept_ended (h.step hstep fun hnone => absurd hnone hrecord)).after
    (Router.later_store (Store.later_step hstep))

theorem record_of_lookup {s : Store} (h : s.lookup = .ok record) : s.record ≠ none := by
  simp [Store.lookup_eq_ok.mp h]

section

variable (h : r.Inv g)

include h

theorem kept_finalizeBulkLoad : Kept g r (finalizeBulkLoad r now) := by
  unfold finalizeBulkLoad
  split
  · exact kept_fail h
  next c store hok =>
  obtain ⟨record, hlookup, -⟩ := bind_inv hok
  have hstep := Store.beginBulkLoadFinalize_step hok
  have hrecord := record_of_lookup hlookup
  dsimp only
  split
  · exact kept_step h hstep hrecord
  split
  · exact kept_step h hstep hrecord
  next hok' =>
  obtain ⟨record', hlookup', -⟩ := bind_inv hok'
  have hinv := h.step hstep fun hnone => absurd hnone hrecord
  exact (kept_step hinv (Store.finalizeBulkLoadStep_step hok') (record_of_lookup hlookup')).after
    (Router.later_store (Store.later_step hstep))

/-- A chunk is completed by an abort with a prefix that may be told. -/
theorem kept_completeAborted
    (hclosed : r.store.Pending ⟨job, chunk⟩ → Router.Closed g r ⟨job, chunk⟩ count) :
    Kept g r (completeAborted env r job chunk child count now) := by
  refine kept_call h fun hok => ?_
  have hmove := Store.completeBulkLoadUpdateChild_move hok
  refine (kept_ended (h.move hmove ?_)).after (Router.later_store (Store.later_move hmove))
  rintro _ ⟨⟩ hpending
  refine ⟨fun k hk => ?_, fun _ => hclosed hpending⟩
  rw [(hclosed hpending).writes, if_pos hk]

theorem kept_settledAbort {a : UpdateAbort} (hadmitted : r.store.Admitted ⟨a.job, a.chunk⟩)
    (hclosed : ∀ {settled}, r.store.Pending ⟨a.job, a.chunk⟩ →
      (settleOutcomes (a.child.updatedRowCount.getD 0) outcomes).abortPrefix = .ok settled →
      Router.Closed g r ⟨a.job, a.chunk⟩ settled) :
    Kept g r (settledAbort env r a now outcomes) := by
  unfold settledAbort
  dsimp only
  split
  · exact kept_fail h
  next settled hok =>
  split
  · refine kept_call h fun {store} hprogress => ?_
    have hmove := Store.recordBulkLoadUpdateProgress_move hprogress
    have hlater := Store.later_move hmove
    have hclosed' : store.Pending ⟨a.job, a.chunk⟩ →
        Router.Closed g { r with store } ⟨a.job, a.chunk⟩ settled := by
      intro hpending
      have hc := hclosed (hlater.pending_of hadmitted hpending) hok
      exact ⟨hc.writes, hc.calls⟩
    refine (kept_completeAborted (h.move hmove ?_) hclosed').after (Router.later_store hlater)
    rintro _ ⟨⟩ hpending
    refine ⟨fun k hk => ?_, nofun⟩
    rw [(hclosed hpending hok).writes, if_pos hk]
  · exact kept_completeAborted h fun hpending => hclosed hpending hok

/-- An abort settles the rows of its chunk from `ordinal` on. -/
theorem kept_settleAbort {a : UpdateAbort} (hids : a.child.resolvedUpdateVertexIds = some ids)
    (hlength : ids.length = a.rowCount) (hadmitted : r.store.Admitted ⟨a.job, a.chunk⟩)
    (hchildIds : ∀ {child}, r.store.receiptAt ⟨a.job, a.chunk⟩ = some child → child.PendingUpdate →
      child.resolvedUpdateVertexIds = a.child.resolvedUpdateVertexIds)
    (hfound : r.store.Pending ⟨a.job, a.chunk⟩ →
      ordinal = a.child.updatedRowCount.getD 0 + outcomes.length ∧
        Found g r.rows ⟨a.job, a.chunk⟩ (a.child.updatedRowCount.getD 0) outcomes) :
    Kept g r (settleAbort env r a now
      (settleUpdateRows r.rows a.chunk outcomes ordinal (a.rowCount - ordinal))) := by
  have hsound : r.store.Pending ⟨a.job, a.chunk⟩ →
      (settleUpdateRows r.rows a.chunk outcomes ordinal (a.rowCount - ordinal)).Sound g r.rows
        ⟨a.job, a.chunk⟩ (a.child.updatedRowCount.getD 0) (outcomes.length + (a.rowCount - ordinal)) := by
    rintro hpending
    obtain ⟨rfl, hfound'⟩ := hfound hpending
    obtain ⟨child, hchild, hpending⟩ := hpending
    exact settleUpdateRows_sound h hchild hpending _ hfound'
  generalize settleUpdateRows r.rows a.chunk outcomes ordinal (a.rowCount - ordinal) = settling at hsound
  cases settling with
  | failed e => exact kept_fail h
  | reading outcomes' ordinal' mutationId =>
    exact kept_suspended h ⟨⟨ids, hids, hlength⟩, hadmitted, hchildIds, hsound⟩
  | settled outcomes' =>
    refine kept_settledAbort h hadmitted fun {settled} hpending hok => ?_
    obtain ⟨hfound', hcount⟩ := hsound hpending
    have hordinal := (hfound hpending).1
    obtain ⟨child, hchild, hpending⟩ := hpending
    exact hfound'.closed h hchild hpending ((hchildIds hchild hpending).trans hids) (by omega) hok

theorem kept_abortChunk {record : BulkLoadRecord} :
    Kept g r (abortChunk env r record chunk now) := by
  unfold abortChunk
  split
  · exact kept_fail h
  next child hchild =>
  have hchild : r.store.receiptAt ⟨record.mutationId, chunk⟩ = some child := hchild
  split
  next hupdate =>
    split
    next hcompleted =>
      refine kept_completeAborted h fun hpending => ?_
      obtain ⟨child', hchild', hpending⟩ := hpending
      cases hchild.symm.trans hchild'
      refine absurd ?_ hpending.pending
      cases hprogress : child.progress <;> simp_all [BulkLoadChunkProgress.isCompleted]
    split
    · exact kept_fail h
    next ids hids =>
    have hkept : Kept g r (settleAbort env r ⟨record.mutationId, chunk, child, ids.length⟩ now
        (settleUpdateRows r.rows chunk [] (child.updatedRowCount.getD 0)
          (ids.length - child.updatedRowCount.getD 0))) := by
      refine kept_settleAbort h hids rfl (h.owned.admitted hchild) (fun hchild' _ => ?_)
        fun hpending => ⟨rfl, .nil fun k hk => ?_⟩
      · cases hchild.symm.trans hchild'
        rfl
      obtain ⟨child', hchild', hpending⟩ := hpending
      cases hchild.symm.trans hchild'
      obtain ⟨count, hcount⟩ := Option.isSome_iff_exists.mp hupdate
      refine (h.pending hchild hpending).recorded hcount k ?_
      simpa [hcount] using hk
    exact hkept
  · split
    · exact kept_fail h
    · exact kept_driveBulkChild h

theorem kept_abortBulkLoad : Kept g r (abortBulkLoad env r now) := by
  unfold abortBulkLoad
  split
  · exact kept_fail h
  next c store hok =>
  obtain ⟨record, hlookup, -⟩ := bind_inv hok
  have hstep := Store.beginBulkLoadAbort_step hok
  have hrecord := record_of_lookup hlookup
  have hinv := h.step hstep fun hnone => absurd hnone hrecord
  dsimp only
  split
  · exact (kept_abortChunk hinv).after (Router.later_store (Store.later_step hstep))
  · exact kept_step h hstep hrecord
  · exact kept_step h hstep hrecord

/-! ### Resumed tasks -/

theorem kept_resumeSettleAppend
    (htask : (Task.settleAppend a outcomes ordinal mutationId).Sound g r)
    (hread : readOutcome g mutationId reply = some outcome) :
    Kept g r (resumeSettleAppend env r a m outcomes ordinal outcome) := by
  obtain ⟨existing, hexisting, hwaits⟩ := htask
  cases outcome with
  | error e => exact kept_fail h
  | ok outcome =>
    refine kept_settleAppend h hexisting hwaits.admitted hwaits.ids fun hpending => ?_
    have hw := hwaits.waits hpending
    obtain ⟨child, hchild, hpending⟩ := hpending
    refine ⟨?_, hw.read h hchild hpending hread⟩
    rw [hw.place, List.length_append, List.length_singleton, Nat.add_assoc]

theorem kept_resumeSettleAbort {a : UpdateAbort}
    (htask : (Task.settleAbort a outcomes ordinal mutationId).Sound g r)
    (hread : readOutcome g mutationId reply = some outcome) :
    Kept g r (resumeSettleAbort env r a now outcomes ordinal outcome) := by
  obtain ⟨⟨ids, hids, hlength⟩, hwaits⟩ := htask
  cases outcome with
  | error e => exact kept_fail h
  | ok outcome =>
    refine kept_settleAbort h hids hlength hwaits.admitted hwaits.ids fun hpending => ?_
    have hw := hwaits.waits hpending
    obtain ⟨child, hchild, hpending⟩ := hpending
    refine ⟨?_, hw.read h hchild hpending hread⟩
    rw [hw.place, List.length_append, List.length_singleton, Nat.add_assoc]

theorem kept_admitResolved : Kept g r (admitResolved env r a m 0 unresolved ids) := by
  unfold admitResolved
  split
  · exact kept_fail h
  next hlength =>
  refine kept_admitRows h (ordinals_resolvedRows _ _ _) (fun _ => ?_) fun _ _ k hk => absurd hk (by simp)
  have hlength : ids.length = a.items.length - 0 := not_not.mp hlength
  rw [length_resolvedRows]
  omega

/-- A record moves on by a recovery. -/
theorem kept_rowMove (hentry : ∀ count, entry = some count → g.journal mutationId = some count)
    (hmove : Router.RowMove entry r key mutationId r')
    (htask : ∀ {task}, flow = .suspended task → task.Sound g r') : Kept g r (r', flow) :=
  ⟨h.rowMove hentry hmove, hmove.later, htask⟩

theorem kept_resume {task : Task} (htask : task.Sound g r)
    (hresume : resume env g r m task reply = some stopped) : Kept g r stopped := by
  unfold resume at hresume
  split at hresume
  · cases hresume
    exact kept_admitInsert h
  · cases hresume
    exact kept_driveDispatched h
  · cases hresume
    exact kept_call h fun hok => kept_driveMoved h (Store.recordBulkLoadRetirementPending_move hok)
  · cases hresume
    exact kept_call h fun hok => kept_driveMoved h (Store.completeBulkLoadChild_move hok)
  · obtain ⟨outcome, hread, rfl⟩ := Option.map_eq_some_iff.mp hresume
    exact kept_resumeSettleAppend h htask hread
  · obtain ⟨outcome, hread, rfl⟩ := Option.map_eq_some_iff.mp hresume
    exact kept_resumeSettleAbort h htask hread
  · cases hresume
    cases (show _ = 0 from htask)
    exact kept_admitResolved h
  next loop row rest mutationId call =>
    obtain ⟨stopped', hrow, rfl⟩ := Option.map_eq_some_iff.mp hresume
    have hloop : LoopSound g r loop row.ordinal (row :: rest) := htask
    refine kept_afterRow (reached_rows.resumeRow ⟨h, .refl r⟩ hrow) hloop (fun hstopped => ?_)
      fun hinv hloop' => kept_runRows hinv hloop'
    exact resumeRow_counted h (hstopped ▸ hrow)
  · split at hresume
    · cases hresume
      exact kept_fail h
    next hok =>
      cases hresume
      exact kept_rowMove h (fun _ => Graph.read_eq_some) (Router.captureRow_eq_ok hok).2
        (by rintro _ ⟨⟩; trivial)
    next hok =>
      cases hresume
      exact kept_rowMove h (fun _ => Graph.read_eq_some) (Router.captureRow_eq_ok hok).2 nofun
  · split at hresume
    · cases hresume
      exact kept_fail h
    next hok =>
    cases hresume
    have hmove : Router.RowMove none r _ _ _ := Router.recordProjectionAdvanced_eq_ok hok
    exact kept_rowMove h (by simp) hmove nofun
  all_goals
    first
    | cases hresume; exact kept_fail h
    | cases hresume

end

end Runs

end Gleaph.Bulk
