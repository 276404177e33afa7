import Gleaph.Bulk.Settling

/-!
# Gleaph.Bulk.RowRuns

The loop over the rows of an update chunk keeps the rows and the shards
together.

A run of a command keeps `Router.Inv`, leads to a later state of the router
(`Router.Later`), and leaves behind a task that knows only what stays true while
it waits (`Task.Sound`): `Kept` says this of a run.  The loop counts a row only
when its record says that it was written (`executeRow_counted`,
`resumeRow_counted`), and completes the chunk behind its last row.
-/

namespace Gleaph.Bulk

/-! ## Later states of the router -/

namespace Router

variable {g : Graph} {r r' r'' : Router} {key : RowKey} {mutationId : Nat}

/-- A record stays, under its id, while its chunk is pending. -/
structure Later (r r' : Router) : Prop where
  store : r.store.Later r'.store
  rows : ∀ {key record}, r.rows key = some record → r.store.Admitted record.chunk →
    r'.store.Pending record.chunk → ∃ record', r'.rows key = some record' ∧
      record'.mutationId = record.mutationId ∧ record'.chunk = record.chunk

/-- No call has come between. -/
theorem Later.refl (r : Router) : r.Later r :=
  ⟨.refl _, fun hrecord _ _ => ⟨_, hrecord, rfl, rfl⟩⟩

/-- What is later than a later state is later. -/
theorem Later.trans (h : r.Later r') (h' : r'.Later r'') : r.Later r'' where
  store := h.store.trans h'.store
  rows {key record} hrecord hadmitted hpending := by
    have hadmitted' := h.store.admitted hadmitted
    obtain ⟨record', hrecord', hid', hchunk'⟩ :=
      h.rows hrecord hadmitted (h'.store.pending_of hadmitted' hpending)
    rw [← hchunk'] at hadmitted' hpending
    obtain ⟨record'', hrecord'', hid'', hchunk''⟩ := h'.rows hrecord' hadmitted' hpending
    exact ⟨record'', hrecord'', hid''.trans hid', hchunk''.trans hchunk'⟩

/-- A call of the store makes the router later and leaves its rows. -/
theorem later_store (h : r.store.Later s') : r.Later { r with store := s' } :=
  ⟨h, fun hrecord _ _ => ⟨_, hrecord, rfl, rfl⟩⟩

/-- A record is written, over one with its id and chunk, or where there was
none. -/
theorem later_putRow
    (h : ∀ {old}, r.rows key = some old → record.mutationId = old.mutationId ∧ record.chunk =
      old.chunk) : r.Later (r.putRow key record) := by
  refine ⟨.refl _, fun {key' old} hold _ _ => ?_⟩
  rw [rows_putRow]
  split_ifs with hkey
  · obtain ⟨hid, hchunk⟩ := h (hkey ▸ hold)
    exact ⟨record, rfl, hid, hchunk⟩
  · exact ⟨old, hold, rfl, rfl⟩

/-- So does a move of a row's record. -/
theorem RowMove.later (h : RowMove entry r key mutationId r') : r.Later r' := by
  cases h with
  | same => exact .refl r
  | @moves record record' hrecord _ hnext =>
    refine later_putRow fun {old} hold => ?_
    cases hrecord.symm.trans hold
    exact hnext.id_chunk

/-- So does sending a row. -/
theorem later_send : r.Later (r.send key mutationId) := by
  unfold Router.send
  split
  · exact .refl r
  · exact ⟨.refl _, fun hrecord _ _ => ⟨_, hrecord, rfl, rfl⟩⟩

/-- So does a reservation, which keeps the counts that were told. -/
theorem Reserves.later {chunk : BulkLoadChunkReceiptKey} (h : Reserves r key chunk mutationId r') :
    r.Later r' := by
  cases h with
  | leases _ _ _ hmove => exact hmove.later
  | makes hfree =>
    refine (later_store (Store.later_step .allocates)).trans (later_putRow fun hold => ?_)
    cases hfree.symm.trans hold

/-- An eviction takes only records whose chunk is not pending. -/
theorem later_evict : r.Later (r.evict key now) := by
  unfold Router.evict
  split
  · exact .refl r
  next record hrecord =>
  split
  next hexpired =>
    refine ⟨.refl _, fun {key' old} hold _ hpending => ?_⟩
    have hkey : key' ≠ key := by
      rintro rfl
      cases hrecord.symm.trans hold
      have hreplay := Store.replayRequired_iff.mpr hpending
      simp [hreplay] at hexpired
    exact ⟨old, by simpa [hkey] using hold, rfl, rfl⟩
  · exact .refl r

end Router

/-! ## What a task knows -/

/-- A settlement of a chunk waits: what it has found is true if the chunk is
still pending, and the chunk then has the targets it had. -/
structure ChunkWaits (g : Graph) (r : Router) (owner : BulkLoadChunkReceiptKey)
    (existing : BulkLoadChunkReceipt) (start : Nat) (outcomes : List UpdateRowOutcome)
    (ordinal mutationId : Nat) : Prop where
  admitted : r.store.Admitted owner
  ids : ∀ {child}, r.store.receiptAt owner = some child → child.PendingUpdate →
    child.resolvedUpdateVertexIds = existing.resolvedUpdateVertexIds
  waits : r.store.Pending owner → Waits g r.rows owner start outcomes ordinal mutationId

/-- The loop over the rows of a chunk: `rows` are the rows from `start` on, and
those before are written if the chunk is still pending. -/
structure LoopSound (g : Graph) (r : Router) (loop : RowLoop) (start : Nat)
    (rows : List ResolvedUpdateRow) : Prop where
  admitted : r.store.Admitted ⟨loop.job, loop.chunk⟩
  ordinals : rows.map (·.ordinal) = List.range' start rows.length
  total : loop.rowCount = start + rows.length
  ids : ∀ {child}, r.store.receiptAt ⟨loop.job, loop.chunk⟩ = some child → child.PendingUpdate →
    ∃ ids, child.resolvedUpdateVertexIds = some ids ∧ ids.length = loop.rowCount
  written : r.store.Pending ⟨loop.job, loop.chunk⟩ → ∀ k < start, g.writes ⟨loop.job, loop.chunk⟩ k = 1

def Task.Sound (g : Graph) (r : Router) : Task → Prop
  | .settleAppend a outcomes ordinal mutationId =>
    ∃ existing, a.existingChild = some existing ∧
      ChunkWaits g r ⟨a.job, a.chunk⟩ existing a.recordedPrefix outcomes ordinal mutationId
  | .settleAbort a outcomes ordinal mutationId =>
    (∃ ids, a.child.resolvedUpdateVertexIds = some ids ∧ ids.length = a.rowCount) ∧
      ChunkWaits g r ⟨a.job, a.chunk⟩ a.child (a.child.updatedRowCount.getD 0) outcomes ordinal
        mutationId
  | .resolveMatchKeys _ committed _ => committed = 0
  | .row loop current rest _ _ => LoopSound g r loop current.ordinal (current :: rest)
  | _ => True

section Later

variable {g : Graph} {r r' : Router}

/-- What a loop has counted stays counted, later and with more written in the
graph. -/
theorem LoopSound.later (h : LoopSound g r loop start rows) (hlater : r.Later r')
    (hwrites : ∀ {owner k}, g.writes owner k = 1 → g'.writes owner k = 1) :
    LoopSound g' r' loop start rows where
  admitted := hlater.store.admitted h.admitted
  ordinals := h.ordinals
  total := h.total
  ids hchild hpending := by
    obtain ⟨child, hchild, hpending, hids⟩ := hlater.store.pending h.admitted hchild hpending
    exact hids ▸ h.ids hchild hpending
  written hpending k hk := hwrites (h.written (hlater.store.pending_of h.admitted hpending) k hk)

/-- A chunk that waits for a row still does. -/
theorem ChunkWaits.later (h : ChunkWaits g r owner existing start outcomes ordinal mutationId)
    (hr : r.Inv g) (hlater : r.Later r')
    (hwrites : ∀ {owner k}, g.writes owner k = 1 → g'.writes owner k = 1) :
    ChunkWaits g' r' owner existing start outcomes ordinal mutationId where
  admitted := hlater.store.admitted h.admitted
  ids hchild hpending := by
    obtain ⟨child, hchild, hpending, hids⟩ := hlater.store.pending h.admitted hchild hpending
    exact hids ▸ h.ids hchild hpending
  waits hpending' := by
    have hpending := hlater.store.pending_of h.admitted hpending'
    obtain ⟨hplace, hbefore, hcommitted, hnoGap, record, hrecord, hid⟩ := h.waits hpending
    obtain ⟨child, hchild, -⟩ := hpending
    have hchunk := hr.chunk_eq hchild hrecord
    obtain ⟨record', hrecord', hid', -⟩ :=
      hlater.rows hrecord (hchunk ▸ h.admitted) (hchunk ▸ hpending')
    exact ⟨hplace, fun k hk => hwrites (hbefore k hk), fun ho => hwrites (hcommitted ho), hnoGap,
      record', hrecord', hid'.trans hid⟩

/-- What a task knows stays true while it waits. -/
theorem Task.Sound.later {task : Task} (h : task.Sound g r) (hr : r.Inv g) (hlater : r.Later r')
    (hwrites : ∀ {owner k}, g.writes owner k = 1 → g'.writes owner k = 1) : task.Sound g' r' := by
  cases task with
  | settleAppend a outcomes ordinal mutationId =>
    obtain ⟨existing, hexisting, hwaits⟩ := h
    exact ⟨existing, hexisting, hwaits.later hr hlater hwrites⟩
  | settleAbort a outcomes ordinal mutationId => exact ⟨h.1, h.2.later hr hlater hwrites⟩
  | resolveMatchKeys a committed unresolved => exact h
  | row loop row rest mutationId call => exact LoopSound.later h hlater hwrites
  | _ => trivial

end Later

/-! ## Runs -/

/-- A run of a command from `r`. -/
structure Kept (g : Graph) (r : Router) (stopped : Router × Flow) : Prop where
  inv : stopped.1.Inv g
  later : r.Later stopped.1
  task : ∀ {task}, stopped.2 = .suspended task → task.Sound g stopped.1

section Runs

variable {env : SystemEnv} {g : Graph} {r r' : Router}

/-- A task that ends has nothing left to wait for. -/
theorem kept_ended (h : r.Inv g) : Kept g r (r, .ended result) :=
  ⟨h, .refl r, nofun⟩

/-- Nor has one that fails. -/
theorem kept_fail (h : r.Inv g) : Kept g r (r.fail e) := kept_ended h

/-- A suspended task is sound where it was suspended. -/
theorem kept_suspended (h : r.Inv g) (htask : task.Sound g r) : Kept g r (r, .suspended task) :=
  ⟨h, .refl r, by rintro _ ⟨⟩; exact htask⟩

/-- A run that goes on from a later state. -/
theorem Kept.after (h : Kept g r' stopped) (hlater : r.Later r') : Kept g r stopped :=
  ⟨h.inv, hlater.trans h.later, h.task⟩

/-- A call of the store and what follows its success. -/
theorem kept_call (h : r.Inv g)
    (hnext : ∀ {store}, result = .ok store → Kept g r (next { r with store })) :
    Kept g r (r.call result next) := by
  unfold Router.call
  split
  · exact kept_ended h
  · exact hnext rfl

/-- A state a command passes through. -/
structure Reached (g : Graph) (r r' : Router) : Prop where
  inv : r'.Inv g
  later : r.Later r'

/-- Child moves lead from reached routers to reached ones. -/
theorem reached_moves {chunk : Nat} : KeptByMoves env ends (Reached g r) job chunk :=
  fun hr hmove => ⟨hr.inv.move ⟨_, _, _, _, hmove⟩ nofun,
    hr.later.trans (Router.later_store (Store.later_move ⟨_, _, _, _, hmove⟩))⟩

/-! ### Insert chunks -/

/-- A driver that suspends waits as the driver of the same child. -/
theorem driveBulkChild_task (h : (driveBulkChild env r d).2 = .suspended task) :
    ∃ call, task = .drive d call := by
  unfold driveBulkChild at h
  split at h
  · cases h
  split at h
  · cases h
  split at h
  · split at h <;> cases h
    exact ⟨_, rfl⟩
  · split at h
    · cases h
    unfold Router.call at h
    split at h <;> cases h
    exact ⟨_, rfl⟩
  · split at h
    · cases h
    unfold Router.call at h
    split at h <;> cases h
    exact ⟨_, rfl⟩
  · split at h
    · cases h
    · split at h <;> cases h
      exact ⟨_, rfl⟩
  · split at h <;> cases h

/-- Driving a child keeps the invariant and ends or waits soundly. -/
theorem kept_driveBulkChild (h : r.Inv g) : Kept g r (driveBulkChild env r d) := by
  have hreached : Reached g r (driveBulkChild env r d).1 :=
    driveBulkChild_rule reached_moves ⟨h, .refl r⟩
  refine ⟨hreached.inv, hreached.later, fun htask => ?_⟩
  obtain ⟨call, rfl⟩ := driveBulkChild_task htask
  trivial

/-- A move of an insert chunk, and the drive that follows it. -/
theorem kept_driveMoved (h : r.Inv g)
    (hmove : Store.Moved env.toBulkEnv none ends r.store d.job d.chunk store) :
    Kept g r (driveBulkChild env { r with store } d) := by
  obtain ⟨_, _, _, _, hmove⟩ := hmove
  have hreached : Reached g r { r with store } := reached_moves ⟨h, .refl r⟩ hmove
  exact (kept_driveBulkChild hreached.inv).after hreached.later

/-- So does a driver that comes back from the graph. -/
theorem kept_driveDispatched (h : r.Inv g) :
    Kept g r (driveDispatched env r d request receipt) := by
  unfold driveDispatched
  split
  · exact kept_fail h
  split
  · exact kept_fail h
  exact kept_call h fun hok => kept_driveMoved h (Store.recordBulkLoadCanonicalCommitted_move hok)

/-- So does an append, whatever state it finds the job in. -/
theorem kept_appendBulkLoad {chunk : Nat} (h : r.Inv g) :
    Kept g r (appendBulkLoad env r chunk fingerprint) := by
  unfold appendBulkLoad
  split
  · exact kept_fail h
  split
  · exact kept_fail h
  dsimp only
  split
  · exact kept_fail h
  split
  · split
    · exact kept_fail h
    · exact kept_driveBulkChild h
  · split
    · exact kept_fail h
    · exact kept_suspended h trivial

/-- So does the admission of an insert child. -/
theorem kept_admitInsert (h : r.Inv g) : Kept g r (admitInsert env r d request) := by
  unfold admitInsert
  split
  · exact kept_fail h
  dsimp only
  split
  · exact kept_fail h
  next hok =>
  have hadmission := Store.admitBulkLoadChild_admission rfl hok
  exact (kept_driveBulkChild (h.admission hadmission)).after
    (Router.later_store (Store.later_admission hadmission))

/-! ### Rows -/

/-- Row moves lead from reached routers to reached ones. -/
theorem reached_rows : RowRule g (Reached g r) key where
  move hr hentry hmove := ⟨hr.inv.rowMove hentry hmove, hr.later.trans hmove.later⟩
  send hr hgate := ⟨hr.inv.send hgate, hr.later.trans Router.later_send⟩

/-- The next row of the loop is reserved. -/
theorem reached_reserves (h : r.Inv g) (hloop : LoopSound g r loop row.ordinal (row :: rest))
    (hreserves : Router.Reserves r ⟨loop.chunk, row.ordinal⟩ ⟨loop.job, loop.chunk⟩ mutationId r') :
    Reached g r r' := by
  refine ⟨?_, hreserves.later⟩
  cases hreserves with
  | leases _ _ _ hmove => exact h.rowMove (by simp) hmove
  | makes hfree hpending hid hid' howner hshard hcount =>
    obtain ⟨child, hchild, hpending⟩ := Store.replayRequired_iff.mp hpending
    obtain ⟨ids, hids, hlength⟩ := hloop.ids hchild hpending
    have htotal := hloop.total
    simp only [List.length_cons] at htotal
    exact h.makeRow hfree hchild hids (by omega) (hloop.written ⟨child, hchild, hpending⟩)
      (hid'.trans hid) howner hshard hcount

section Counted

variable {key : RowKey} {mutationId count now : Nat}

/-- A dispatched row is counted only with the count of its record. -/
theorem dispatchRow_counted
    (h : dispatchRow r key mutationId routingOwner fate = (r', .counted count)) :
    r'.completedRowCount key = some count := by
  unfold dispatchRow at h
  split at h
  next hcount =>
    cases h
    exact hcount
  split at h
  · split at h <;> cases h
  · split at h <;> cases h
  split at h
  · cases h
  unfold sendRow at h
  split at h
  · cases h
  next hgate =>
    cases h
    exact Router.scalarDispatchGate_eq_completed hgate
  · cases h
  · cases h

/-- So is an executed one. -/
theorem executeRow_counted (h : executeRow env r loop row m = (r', .counted count)) :
    r'.completedRowCount ⟨loop.chunk, row.ordinal⟩ = some count := by
  unfold executeRow at h
  dsimp only at h
  split at h
  · cases h
  split at h
  · cases h
  split at h
  next hcount =>
    cases h
    exact hcount
  · split at h
    · cases h
    · exact dispatchRow_counted h

/-- A record that is published has its count: its projection had not advanced
before. -/
theorem recordProjectionAdvanced_completed (h : r.Inv g)
    (hok : r.recordProjectionAdvanced key mutationId now = .ok r') :
    (r'.completedRowCount key).isSome := by
  obtain ⟨record, hfound, -, hok⟩ := Router.scalarMutationRecord_bind hok
  split at hok
  · split_ifs at hok with hcompleted
    cases hok
    simpa [Router.completedRowCount, hfound] using hcompleted
  next shard hshard =>
  have hadvanced := (h.rows hfound).notAdvanced hshard
  split_ifs at hok with hcompleted hadvanced'
  · rw [hadvanced] at hadvanced'
    cases hadvanced'
  cases hok
  obtain ⟨-, -, htold⟩ := Router.finishRow_spec record { shard with projectionAdvanced := true } now
  rw [if_pos ⟨by simpa using hcompleted, rfl⟩] at htold
  simp [Router.completedRowCount, htold.2]

/-- And so is one that is resumed. -/
theorem resumeRow_counted (h : r.Inv g)
    (hresume : resumeRow g r loop row mutationId m call reply = some (r', .counted count)) :
    r'.completedRowCount ⟨loop.chunk, row.ordinal⟩ = some count := by
  have hreplied : ∀ {r reply entry}, repliedRow r mutationId reply entry ≠ (r', .counted count) := by
    intro r reply entry heq
    unfold repliedRow at heq
    split at heq
    · split at heq <;> cases heq
    all_goals cases heq
  unfold resumeRow at hresume
  split at hresume
  · split at hresume <;> cases hresume
  · injection hresume with hresume
    unfold reconciledRow at hresume
    split at hresume
    · cases hresume
    · exact dispatchRow_counted hresume
  · cases hresume
  · cases hresume
  · split at hresume
    · cases hresume
    · cases hresume
    · injection hresume with hresume
      exact absurd hresume hreplied
  · injection hresume with hresume
    exact absurd hresume hreplied
  · injection hresume with hresume
    unfold publishRow at hresume
    split at hresume
    · cases hresume
    next hok =>
    obtain ⟨count', hcount'⟩ := Option.isSome_iff_exists.mp (recordProjectionAdvanced_completed h hok)
    cases hresume
    simp [hcount']
  all_goals cases hresume

end Counted

/-! ### The loop over the rows -/

/-- A chunk whose rows are all written is completed. -/
theorem kept_completeRows (h : r.Inv g) (hloop : LoopSound g r loop loop.rowCount []) :
    Kept g r (completeRows env r loop now) := by
  refine kept_call h fun hok => ?_
  have hmove := Store.completeBulkLoadUpdateChild_move hok
  refine (kept_ended (h.move hmove ?_)).after (Router.later_store (Store.later_move hmove))
  rintro _ ⟨⟩ hpending
  have hwritten := hloop.written hpending
  obtain ⟨child, hchild, hpending⟩ := hpending
  refine ⟨hwritten, fun _ => h.closed hchild hpending hwritten fun k hk record hrecord => ?_⟩
  obtain ⟨ids, hids, hlength⟩ := hloop.ids hchild hpending
  obtain ⟨ids', hids', hlt⟩ := (h.pending hchild hpending).ids
  cases hids.symm.trans hids'
  have := hlt hrecord
  omega

/-- What follows a row: its count is added and the loop goes on behind it, or it
stops there. -/
theorem kept_afterRow (hreached : Reached g r stopped.1)
    (hloop : LoopSound g r loop row.ordinal (row :: rest))
    (hcounted : ∀ {r' count}, stopped = (r', .counted count) →
      r'.completedRowCount ⟨loop.chunk, row.ordinal⟩ = some count)
    (hnext : ∀ {r'}, r'.Inv g → LoopSound g r' loop (row.ordinal + 1) rest → Kept g r' (next r')) :
    Kept g r (afterRow env loop row rest next stopped) := by
  obtain ⟨r', flow⟩ := stopped
  obtain ⟨hinv, hlater⟩ := hreached
  have hloop' := hloop.later hlater id
  cases flow with
  | failed e => exact (kept_fail hinv).after hlater
  | waits mutationId call =>
    have hkept : Kept g r' (r', .suspended (.row loop row rest mutationId call)) :=
      kept_suspended hinv hloop'
    exact hkept.after hlater
  | counted count =>
    unfold afterRow
    dsimp only
    split
    · exact (kept_fail hinv).after hlater
    next hcommitted =>
      cases appliedTargetOutcome_eq_committed.mp hcommitted
      refine (kept_call hinv fun {store} hok => ?_).after hlater
      have hmove := Store.recordBulkLoadUpdateProgress_move hok
      have hlater' := Router.later_store (Store.later_move hmove)
      have hwritten : r'.store.Pending ⟨loop.job, loop.chunk⟩ →
          ∀ k < row.ordinal + 1, g.writes ⟨loop.job, loop.chunk⟩ k = 1 := by
        intro hpending k hk
        rcases Nat.lt_succ_iff_lt_or_eq.mp hk with hlt | rfl
        · exact hloop'.written hpending k hlt
        · obtain ⟨child, hchild, hpending⟩ := hpending
          obtain ⟨record, hrecord, hcompleted⟩ := Option.bind_eq_some_iff.mp (hcounted rfl)
          exact (hinv.pending hchild hpending).writes
            ⟨record, hrecord, (hinv.rows hrecord).completed hcompleted⟩
      refine (hnext (hinv.move hmove ?_) ?_).after hlater'
      · rintro _ ⟨⟩ hpending
        exact ⟨hwritten hpending, nofun⟩
      have hmoved := hloop'.later hlater' id
      have htotal := hmoved.total
      have hordinals := hmoved.ordinals
      simp only [List.length_cons, List.map_cons, List.range'_succ, List.cons.injEq] at htotal hordinals
      exact
        { hmoved with
          ordinals := hordinals.2
          total := by omega
          written := fun hpending =>
            hwritten (hlater'.store.pending_of hloop'.admitted hpending) }
    · exact (kept_fail hinv).after hlater

/-- The loop over the rows: by the rows that are left. -/
theorem kept_runRows :
    ∀ {r : Router} {start : Nat}, r.Inv g → LoopSound g r loop start rows →
      Kept g r (runRows env loop m rows r) := by
  induction rows with
  | nil =>
    intro r start h hloop
    have hstart : loop.rowCount = start := hloop.total
    exact kept_completeRows h (hstart ▸ hloop)
  | cons row rest ih =>
    intro r start h hloop
    have hordinals := hloop.ordinals
    simp only [List.length_cons, List.map_cons, List.range'_succ, List.cons.injEq] at hordinals
    have hloop : LoopSound g r loop row.ordinal (row :: rest) := hordinals.1.symm ▸ hloop
    have hexecute : Kept g r (afterRow env loop row rest (runRows env loop m rest)
        (executeRow env r loop row m)) :=
      kept_afterRow (reached_rows.executeRow ⟨h, .refl r⟩ fun hreserves =>
        reached_reserves h hloop hreserves) hloop (fun hstopped => executeRow_counted hstopped) ih
    unfold runRows
    dsimp only
    split
    · exact hexecute
    · split
      · exact hexecute
      · exact kept_fail h
    · exact kept_fail h

end Runs

end Gleaph.Bulk
