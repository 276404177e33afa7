import Gleaph.Runs
import Gleaph.Bulk.Job
import Gleaph.Bulk.Rules

/-!
# Gleaph.Bulk.Ending

A bulk load ends only when its chunks are done.

Over every run, the receipts of a job are consecutive, all but the one the job
works on are completed, and the counters count the completed ones: each command
keeps `Store.Sound` (`sound_step`), whatever its calls answer and whenever it is
resumed.  The one exception is a task on a chunk that was completed by another
one meanwhile, resumed while the job aborts a later chunk: its completion takes
the abort for its own and ends the job.
-/

namespace Gleaph.Bulk

open BulkLoadLifecycle

/-! ## Completed chunks -/

namespace Store

variable {s s' : Store} {env : BulkEnv} {job chunk : Nat}

/-- A sound store in which the chunk may be completed, once or again. -/
structure Ready (s : Store) (job chunk : Nat) : Prop where
  sound : s.Sound
  notStale : ¬ s.Stale job chunk

/-- A job that does not abort has no stale chunk. -/
theorem not_stale_of_lifecycle {record : BulkLoadRecord} (hrecord : s.record = some record)
    (h : ∀ k, record.coordinator.lifecycle ≠ .abortPending k) : ¬ s.Stale job chunk := by
  rintro ⟨record', hrecord', -, hlifecycle, -⟩
  cases hrecord.symm.trans hrecord'
  exact h _ hlifecycle

/-- A child's move keeps the store ready at its chunk. -/
theorem Ready.move (h : s.Ready job chunk) (hmove : Moved env told ends s job chunk s') :
    s'.Ready job chunk := by
  refine ⟨h.sound.move hmove h.notStale, ?_⟩
  obtain ⟨record, child, child', record', hrecord, rfl, -, -, hchild, hstep, -, hid, -, rfl⟩ := hmove
  have hreceipt : (((s.putReceipt record.mutationId chunk child').putRecord record').receipt
      record.mutationId chunk) = some child' := by
    rw [receipt_putRecord, receipt_putReceipt, if_pos ⟨rfl, rfl⟩]
  generalize hc' : record'.coordinator = c' at hstep
  cases hstep with
  | same =>
    rintro ⟨_, ⟨⟩, -, hlifecycle, hcommitted, child', hchild', hdone⟩
    cases hreceipt.symm.trans hchild'
    rw [hc'] at hlifecycle hcommitted
    exact h.notStale ⟨record, hrecord, rfl, hlifecycle, hcommitted, child, hchild, hdone⟩
  | moves _ hstill =>
    rintro ⟨-, -, -, -, -, child', hchild', hdone⟩
    cases hreceipt.symm.trans hchild'
    exact hstill hdone
  | completes _ _ _ _ _ _ hleft =>
    refine not_stale_of_lifecycle rfl fun k hk => ?_
    rw [hc'] at hk
    simp [hk, activeChunk] at hleft
  | repeats _ _ _ _ haborted =>
    refine not_stale_of_lifecycle rfl fun k hk => ?_
    rw [hc', haborted] at hk
    cases hk

/-- So does an admission there. -/
theorem Ready.admission (h : s.Ready job chunk) (hadmission : Admission s job chunk s') :
    s'.Ready job chunk := by
  refine ⟨h.sound.admission hadmission, ?_⟩
  cases hadmission with
  | same => exact h.notStale
  | admits _ _ _ _ _ _ _ _ _ happending =>
    obtain ⟨fingerprint, id, hc⟩ := happending
    refine not_stale_of_lifecycle rfl fun k hk => ?_
    rw [hc] at hk
    cases hk

/-- An id is taken. -/
theorem Ready.allocate (h : s.Ready job chunk) :
    ({ s with counter := s.counter + 1 } : Store).Ready job chunk :=
  ⟨h.sound.step .allocates, h.notStale⟩

end Store

/-! ## Commands on a chunk -/

section Commands

variable {env : SystemEnv} {g : Graph} {r : Router} {job chunk : Nat} {m : Moment}

/-- The same as a rule for the drivers. -/
theorem ready_moves : KeptByMoves env ends (fun r => r.store.Ready job chunk) job chunk :=
  fun hr hmove => hr.move ⟨_, _, _, _, hmove⟩

/-- And as one for the rows, which never touch the store. -/
theorem ready_rows : RowRule g (fun r => r.store.Ready job chunk) key where
  move hr _ hmove := hmove.store_eq ▸ hr
  send hr _ := by rwa [Router.store_send]

theorem ready_afterRow (hstopped : stopped.1.store.Ready loop.job loop.chunk)
    (hnext : ∀ {r}, r.store.Ready loop.job loop.chunk → (next r).1.store.Ready loop.job loop.chunk) :
    (afterRow env loop row rest next stopped).1.store.Ready loop.job loop.chunk := by
  exact afterRow_rule (P := fun r => r.store.Ready loop.job loop.chunk) hstopped fun _ hok =>
    hnext (hstopped.move (Store.recordBulkLoadUpdateProgress_move hok))

/-- The loop over the rows: by the rows that are left. -/
theorem ready_runRows :
    ∀ {r : Router}, r.store.Ready loop.job loop.chunk →
      (runRows env loop m rows r).1.store.Ready loop.job loop.chunk := by
  induction rows with
  | nil =>
    intro r hr
    exact Router.call_rule (P := fun r => r.store.Ready loop.job loop.chunk) hr fun hok =>
      hr.move (Store.completeBulkLoadUpdateChild_move hok)
  | cons row rest ih =>
    intro r hr
    have hexecute : (afterRow env loop row rest (runRows env loop m rest)
        (executeRow env r loop row m)).1.store.Ready loop.job loop.chunk := by
      refine ready_afterRow ((ready_rows : RowRule .fresh _ _).executeRow hr fun h => ?_) ih
      rcases h.store_eq with hstore | hstore
      · exact hstore ▸ hr
      · exact hstore ▸ hr.allocate
    unfold runRows
    dsimp only
    split
    · exact hexecute
    · split
      · exact hexecute
      · exact hr
    · exact hr

section Append

variable {a : UpdateAppend} (hr : r.store.Ready a.job a.chunk)

include hr

theorem ready_admitRows :
    (admitRows env r a m committed unresolved identities rows).1.store.Ready a.job a.chunk := by
  unfold admitRows
  split
  · exact hr
  next hok =>
    have hadmitted := hr.admission (Store.admitBulkLoadUpdateChild_admission hok)
    split
    · exact hr
    · exact hadmitted
  next hok => exact ready_runRows (hr.admission (Store.admitBulkLoadUpdateChild_admission hok))

theorem ready_resolveUpdates :
    (resolveUpdates env r a m settlement).1.store.Ready a.job a.chunk := by
  unfold resolveUpdates
  split
  · exact hr
  split
  · exact hr
  split
  · exact hr
  split
  · exact hr
  split
  · exact hr
  · exact ready_admitRows hr

/-- An append that settles rows of an earlier attempt leaves the store ready. -/
theorem ready_settleAppend : (settleAppend env r a m settling).1.store.Ready a.job a.chunk := by
  unfold settleAppend
  split
  · exact hr
  · exact hr
  unfold settledAppend
  dsimp only
  split
  · exact hr
  split
  · exact Router.call_rule (P := fun r => r.store.Ready a.job a.chunk) hr fun hok =>
      ready_resolveUpdates (hr.move (Store.recordBulkLoadUpdateProgress_move hok))
  · exact ready_resolveUpdates hr

end Append

theorem ready_completeAborted (hr : r.store.Ready job chunk) :
    (completeAborted env r job chunk child count now).1.store.Ready job chunk := by
  exact Router.call_rule (P := fun r => r.store.Ready job chunk) hr fun hok =>
    hr.move (Store.completeBulkLoadUpdateChild_move hok)

/-- So does an abort that settles them. -/
theorem ready_settleAbort (hr : r.store.Ready a.job a.chunk) :
    (settleAbort env r a now settling).1.store.Ready a.job a.chunk := by
  unfold settleAbort
  split
  · exact hr
  · exact hr
  unfold settledAbort
  dsimp only
  split
  · exact hr
  split
  · exact Router.call_rule (P := fun r => r.store.Ready a.job a.chunk) hr fun hok =>
      ready_completeAborted (hr.move (Store.recordBulkLoadUpdateProgress_move hok))
  · exact ready_completeAborted hr

/-- An abort of the pending chunk leaves the store sound. -/
theorem ready_abortChunk (hr : r.store.Ready record.mutationId chunk) :
    (abortChunk env r record chunk now).1.store.Sound := by
  unfold abortChunk
  split
  · exact hr.sound
  split
  · split
    · exact (ready_completeAborted hr).sound
    split
    · exact hr.sound
    next ids _ => exact (ready_settleAbort hr).sound
  · split
    · exact hr.sound
    · exact (driveBulkChild_rule ready_moves hr).sound

variable (h : r.store.Sound)

include h

/-- An abort: the chunk it ends is the one the job works on. -/
theorem sound_abortBulkLoad : (abortBulkLoad env r now).1.store.Sound := by
  unfold abortBulkLoad
  split
  · exact h
  next c store hok =>
  have hsound := h.step (Store.beginBulkLoadAbort_step hok)
  dsimp only
  split
  next chunk record hlifecycle hlookup =>
    have hrecord := Store.lookup_eq_ok.mp hlookup
    have hjob := hsound.job hrecord
    have hactive := hjob.active (k := chunk) (by
      rw [Store.beginBulkLoadAbort_coordinator hok hrecord, hlifecycle]
      rfl)
    -- the chunk that the job aborts is not completed
    refine ready_abortChunk ⟨hsound, ?_⟩
    rintro ⟨-, -, -, -, -, child, hchild, hdone⟩
    have hlt := (hjob.completed hchild).mp hdone
    omega
  · exact hsound
  · exact hsound

/-- So does finalizing. -/
theorem sound_finalizeBulkLoad : (finalizeBulkLoad r now).1.store.Sound := by
  unfold finalizeBulkLoad
  split
  · exact h
  next c store hok =>
  have hbegun := h.step (Store.beginBulkLoadFinalize_step hok)
  dsimp only
  split
  · exact hbegun
  split
  · exact hbegun
  next hstep => exact hbegun.step (Store.finalizeBulkLoadStep_step hstep)

/-- A drive writes only while the chunk is not completed. -/
theorem sound_driveBulkChild : (driveBulkChild env r d).1.store.Sound := by
  by_cases hstale : r.store.Stale d.job d.chunk
  · obtain ⟨-, -, -, -, -, child, hchild, hdone⟩ := hstale
    have hchild : r.store.receipt d.job d.chunk = some child := hchild
    unfold driveBulkChild
    simp only [hchild, hdone]
    split
    · exact h
    · split <;> exact h
  · exact (driveBulkChild_rule ready_moves ⟨h, hstale⟩).sound

/-- So does an append of inserts. -/
theorem sound_appendBulkLoad : (appendBulkLoad env r chunk fingerprint).1.store.Sound := by
  unfold appendBulkLoad
  split
  · exact h
  split
  · exact h
  dsimp only
  split
  · exact h
  split
  · split
    · exact h
    · exact sound_driveBulkChild h
  · split <;> exact h

/-- So does one of updates. -/
theorem sound_appendBulkLoadUpdates :
    (appendBulkLoadUpdates env r chunk fingerprint items m).1.store.Sound := by
  unfold appendBulkLoadUpdates
  split
  · exact h
  next record _ =>
  split
  · exact h
  dsimp only
  split
  · exact h
  split
  · exact h
  split
  · split <;> exact h
  next hcompleted =>
  refine (ready_settleAppend ⟨h, ?_⟩).sound
  rintro ⟨-, -, -, -, -, child, hchild, hdone⟩
  have hchild : r.store.receipt record.mutationId chunk = some child := hchild
  simp [hchild, hdone, BulkLoadChunkProgress.isCompleted] at hcompleted

end Commands

/-! ## Tasks and events -/

/-- The chunk a task works on. -/
def Task.owner : Task → Option BulkLoadChunkReceiptKey
  | .resolveEndpoints d | .drive d _ => some ⟨d.job, d.chunk⟩
  | .settleAppend a _ _ _ | .resolveMatchKeys a _ _ => some ⟨a.job, a.chunk⟩
  | .settleAbort a _ _ _ => some ⟨a.job, a.chunk⟩
  | .row loop _ _ _ _ => some ⟨loop.job, loop.chunk⟩
  | .recover _ _ _ => none

section Events

variable {env : SystemEnv} {s : System}

theorem ready_admitInsert (hr : r.store.Ready d.job d.chunk) :
    (admitInsert env r d request).1.store.Sound := by
  unfold admitInsert
  split
  · exact hr.sound
  dsimp only
  split
  · exact hr.sound
  next hok => exact sound_driveBulkChild (hr.sound.admission (Store.admitBulkLoadChild_admission rfl hok))

/-- A task resumed on a chunk that is not stale. -/
theorem sound_resume (h : r.store.Sound)
    (hstale : ∀ owner ∈ task.owner, ¬ r.store.Stale owner.jobMutationId owner.chunkIndex)
    (hresume : resume env g r m task reply = some stopped) : stopped.1.store.Sound := by
  unfold resume at hresume
  split at hresume
  · cases hresume
    exact ready_admitInsert ⟨h, hstale _ rfl⟩
  · cases hresume
    exact (driveDispatched_rule ready_moves ⟨h, hstale _ rfl⟩).sound
  next d =>
    cases hresume
    have hr : r.store.Ready d.job d.chunk := ⟨h, hstale _ rfl⟩
    exact Router.call_rule (P := fun r => r.store.Sound) h fun hok =>
      sound_driveBulkChild (hr.move (Store.recordBulkLoadRetirementPending_move hok)).sound
  next d =>
    cases hresume
    have hr : r.store.Ready d.job d.chunk := ⟨h, hstale _ rfl⟩
    exact Router.call_rule (P := fun r => r.store.Sound) h fun hok =>
      sound_driveBulkChild (hr.move (Store.completeBulkLoadChild_move hok)).sound
  · obtain ⟨outcome, -, rfl⟩ := Option.map_eq_some_iff.mp hresume
    cases outcome with
    | error e => exact h
    | ok outcome => exact (ready_settleAppend ⟨h, hstale _ rfl⟩).sound
  · obtain ⟨outcome, -, rfl⟩ := Option.map_eq_some_iff.mp hresume
    cases outcome with
    | error e => exact h
    | ok outcome => exact (ready_settleAbort ⟨h, hstale _ rfl⟩).sound
  · cases hresume
    unfold admitResolved
    split
    · exact h
    · exact (ready_admitRows ⟨h, hstale _ rfl⟩).sound
  next loop row rest mutationId call =>
    obtain ⟨rowStopped, hrow, rfl⟩ := Option.map_eq_some_iff.mp hresume
    have hr : r.store.Ready loop.job loop.chunk := ⟨h, hstale _ rfl⟩
    have hstopped : rowStopped.1.store.Ready loop.job loop.chunk := ready_rows.resumeRow hr hrow
    exact (ready_afterRow hstopped ready_runRows).sound
  · split at hresume
    · cases hresume
      exact h
    next hok =>
      cases hresume
      exact (Router.captureRow_eq_ok hok).2.store_eq ▸ h
    next hok =>
      cases hresume
      exact (Router.captureRow_eq_ok hok).2.store_eq ▸ h
  · split at hresume
    · cases hresume
      exact h
    next hok =>
    cases hresume
    have hmove : Router.RowMove none r _ _ _ := Router.recordProjectionAdvanced_eq_ok hok
    exact hmove.store_eq ▸ h
  all_goals
    first
    | cases hresume; exact h
    | cases hresume

/-- A suspended call on a chunk that is completed resumes, while the job aborts
the next one, which the Graph has committed. -/
def System.ResumesStale (s : System) (event : Event) : Prop :=
  ∃ task ∈ event.resumed.bind (s.tasks[·]?), ∃ owner ∈ task.owner,
    s.router.store.Stale owner.jobMutationId owner.chunkIndex

instance (s : System) (event : Event) : Decidable (s.ResumesStale event) :=
  inferInstanceAs (Decidable (∃ task ∈ _, ∃ owner ∈ _, _))

/-- What a task leaves at the router holds after it ran. -/
theorem System.ran_rule {P : Router → Prop} {tasks : List Task} (h : P s.router)
    (hstopped : P stopped.1) : P (s.ran tasks stopped).router := by
  unfold System.ran
  split
  · exact h
  · exact hstopped
  · exact hstopped

theorem sound_called {α : Type} {result : Except RouterError (α × Store)}
    (h : s.router.store.Sound)
    (hok : ∀ {a store}, result = .ok (a, store) → Store.Step s.router.store store) :
    (s.called (result.map Prod.snd)).router.store.Sound := by
  cases result with
  | error e => exact h
  | ok pair => exact h.step (hok rfl)

/-- Every event but a stale resumption keeps the job sound. -/
theorem sound_step {event : Event} (h : s.router.store.Sound) (hstale : ¬ s.ResumesStale event) :
    (s.step env event).router.store.Sound := by
  cases event with
  | start target => exact sound_called h Store.startBulkLoadJob_step
  | append chunk fingerprint =>
    exact System.ran_rule (P := fun r => r.store.Sound) h (sound_appendBulkLoad h)
  | appendUpdates chunk fingerprint items m =>
    exact System.ran_rule (P := fun r => r.store.Sound) h (sound_appendBulkLoadUpdates h)
  | finalize now => exact System.ran_rule (P := fun r => r.store.Sound) h (sound_finalizeBulkLoad h)
  | abort now => exact System.ran_rule (P := fun r => r.store.Sound) h (sound_abortBulkLoad h)
  | collect now => exact sound_called h Store.bulkLoadReceiptGcStep_step
  | allocate => exact sound_called h Store.allocateMutationId_step
  | resume task reply m =>
    unfold System.step
    dsimp only
    split
    · exact h
    next waiting hwaiting =>
    split
    · exact h
    next hresume =>
    refine System.ran_rule (P := fun r => r.store.Sound) h (sound_resume h ?_ hresume)
    exact fun owner howner hs => hstale ⟨waiting, hwaiting, owner, howner, hs⟩
  | lose task => exact h
  | deliver call delivery =>
    unfold System.step
    dsimp only
    split <;> exact h
  | recover key =>
    unfold System.step System.recoverRow
    dsimp only
    split
    · split <;> exact h
    · exact h
  | evict key now =>
    unfold System.step Router.evict
    dsimp only
    split
    · exact h
    · split <;> exact h

end Events

/-! ## The receipts of a job -/

section Receipts

variable {s : Store} {record : BulkLoadRecord}

/-- The receipts of a job, in the order of their indexes. -/
def Store.jobReceipts (s : Store) (record : BulkLoadRecord) : List (Nat × BulkLoadChunkReceipt) :=
  (s.receipts record.mutationId).rows

/-- The receipts of a job are those stored under its id. -/
theorem mem_jobReceipts :
    row ∈ s.jobReceipts record ↔ s.receipt record.mutationId row.1 = some row.2 :=
  SeqMap.get_eq_some.symm

theorem countP_lt_range' (n d : Nat) : (List.range' 0 (n + d)).countP (· < n) = n := by
  have hsplit : List.range' 0 (n + d) = List.range' 0 n ++ List.range' n d := by
    rw [← List.range'_append_1, Nat.zero_add]
  rw [hsplit, List.countP_append, List.countP_eq_length.mpr, List.countP_eq_zero.mpr]
  · simp
  · intro k hk
    simp [List.mem_range'_1] at hk ⊢
    omega
  · intro k hk
    simpa using hk

variable (h : JobSound record.coordinator (s.receipt record.mutationId))

include h

/-- They have consecutive chunk indices, from the collection's cursor to the
last accepted chunk. -/
theorem JobSound.keys_eq :
    (s.jobReceipts record).map Prod.fst =
      List.range' (record.coordinator.receiptGcCursor.getD 0)
        (record.coordinator.accepted - record.coordinator.receiptGcCursor.getD 0) := by
  refine SeqMap.eq_range' (List.pairwise_map.mpr (s.receipts record.mutationId).sorted) fun k => ?_
  rw [← h.present k, Option.isSome_iff_exists]
  simp [mem_jobReceipts]

/-- A receipt that is not completed is the one of the chunk being worked on. -/
theorem JobSound.active_of_pending (hrow : row ∈ s.jobReceipts record)
    (hpending : row.2.progress ≠ .completed) :
    record.coordinator.lifecycle.activeChunk = some row.1 := by
  have hchild := mem_jobReceipts.mp hrow
  have hlt := h.lt_accepted hchild
  have hge : ¬ row.1 < record.coordinator.nextChunkIndex := fun hlt => hpending ((h.completed hchild).mpr hlt)
  cases hactive : record.coordinator.lifecycle.activeChunk with
  | none =>
    simp only [BulkLoadCoordinator.accepted, hactive] at hlt
    simp at hlt
    omega
  | some k =>
    have hk := h.active hactive
    simp only [BulkLoadCoordinator.accepted, hactive] at hlt
    simp at hlt
    exact congrArg some (by omega)

/-- The counter of a job is the number of its completed receipts. -/
theorem JobSound.countP_completed (hgc : record.coordinator.receiptGcCursor = none) :
    (s.jobReceipts record).countP (fun row => row.2.progress.isCompleted) =
      record.coordinator.nextChunkIndex := by
  have hcount : (s.jobReceipts record).countP (fun row => row.2.progress.isCompleted) =
      ((s.jobReceipts record).map Prod.fst).countP (· < record.coordinator.nextChunkIndex) := by
    rw [List.countP_map]
    refine List.countP_congr fun row hrow => ?_
    have := h.completed (mem_jobReceipts.mp hrow)
    cases hprogress : row.2.progress <;> simp_all [BulkLoadChunkProgress.isCompleted]
  rw [hcount, h.keys_eq, hgc]
  exact countP_lt_range' _ _

end Receipts

/-! ## Every run -/

/-- In every state a run reaches without a stale resumption: the receipts of
the job have consecutive indexes, at most one is not completed and it is the
one the lifecycle names, a job that has ended has completed receipts only, and
until they are collected the counters are the number of completed receipts. -/
theorem bulk_load_ends_with_its_chunks (env : SystemEnv) (events : List Event)
    (hrun : AllSteps (System.step env) (fun s event => ¬ s.ResumesStale event) .fresh events) :
    let s := (events.foldl (System.step env) .fresh).router.store
    ∀ record, s.record = some record →
      (∃ first, (s.jobReceipts record).map Prod.fst =
        List.range' first (s.jobReceipts record).length) ∧
      (∀ row ∈ s.jobReceipts record, row.2.progress ≠ .completed →
        record.coordinator.lifecycle.activeChunk = some row.1 ∧
        ∀ other ∈ s.jobReceipts record, other.2.progress ≠ .completed → other = row) ∧
      (record.coordinator.lifecycle = .completed ∨ record.coordinator.lifecycle = .aborted →
        ∀ row ∈ s.jobReceipts record, row.2.progress = .completed) ∧
      (record.coordinator.receiptGcCursor = none →
        record.coordinator.nextChunkIndex =
            (s.jobReceipts record).countP (fun row => row.2.progress.isCompleted) ∧
          record.coordinator.completedChunkCount =
            (s.jobReceipts record).countP (fun row => row.2.progress.isCompleted)) := by
  intro s record hrecord
  have hstep : ∀ (s : System) (event : Event), s.router.store.Sound → ¬ s.ResumesStale event →
      (s.step env event).router.store.Sound := fun _ _ => sound_step
  have hsound : s.Sound := foldl_invariant hstep Store.sound_fresh hrun
  have hjob := hsound.job hrecord
  refine ⟨⟨record.coordinator.receiptGcCursor.getD 0, ?_⟩, fun row hrow hpending =>
    ⟨hjob.active_of_pending hrow hpending, ?_⟩, ?_, fun hgc => ?_⟩
  · have hkeys := hjob.keys_eq
    have hlength := congrArg List.length hkeys
    rw [List.length_map, List.length_range'] at hlength
    rw [hkeys, hlength]
  · intro other hother hpending'
    have hkey : other.1 = row.1 :=
      Option.some.inj ((hjob.active_of_pending hother hpending').symm.trans
        (hjob.active_of_pending hrow hpending))
    exact Prod.ext hkey (SeqMap.row_unique hother (hkey ▸ hrow))
  · rintro hended row hrow
    by_contra hpending
    have hactive := hjob.active_of_pending hrow hpending
    rcases hended with hended | hended <;> simp [hended, activeChunk] at hactive
  · rw [hjob.countP_completed hgc, hjob.valid.completed]
    exact ⟨rfl, rfl⟩

/-! ### Two drivers of one chunk -/

namespace TwoDrivers

/-- The reply to a task. -/
def reply (task : Nat) (reply : Reply) : Event := .resume task reply .planned

/-- Two appends drive chunk 0 to its retirement, and the second one completes
it; then chunk 1 is committed on the Graph.  The first append still waits for
the retirement of chunk 0. -/
def committed : List Event :=
  [.start ⟨7, [1]⟩,
    .append 0 [10], reply 0 (.request ⟨1, 7, [1], []⟩), .append 0 [10],
    reply 0 (.receipt (.vertex 3 none)), reply 1 .done, reply 0 (.receipt (.vertex 3 none)),
    reply 1 .done,
    .append 1 [11], reply 1 (.request ⟨1, 7, [1], []⟩), reply 1 (.receipt (.vertex 2 none))]

end TwoDrivers

open TwoDrivers in
/-- The first append is resumed before the job is aborted. -/
theorem bulk_load_ends_with_its_chunks_two_drivers :
    let events := committed ++ [reply 0 .done, .abort 5, reply 0 .done, reply 1 .done]
    let s := (events.foldl (System.step .admitting) .fresh).router.store
    AllSteps (System.step .admitting) (fun s event => ¬ s.ResumesStale event) .fresh events ∧
      (s.record.map fun record => record.coordinator.lifecycle) = some .aborted ∧
      ∀ record, s.record = some record →
        ∀ row ∈ s.jobReceipts record, row.2.progress = .completed := by
  intro events s
  have hrun : AllSteps (System.step .admitting) (fun s event => ¬ s.ResumesStale event) .fresh events := by
    decide +kernel
  have haborted : (s.record.map fun record => record.coordinator.lifecycle) = some .aborted := by
    decide +kernel
  refine ⟨hrun, haborted, fun record hrecord => ?_⟩
  rw [hrecord] at haborted
  exact (bulk_load_ends_with_its_chunks .admitting events hrun record hrecord).2.2.1
    (.inr (Option.some.inj haborted))

open TwoDrivers in
/-- The first append is resumed while the job aborts chunk 1: the job is ended
although chunk 1 is not completed. -/
theorem late_completion_ends_aborting_job :
    let s := ((committed ++ [.abort 5, reply 0 .done]).foldl (System.step .admitting) .fresh).router.store
    ∃ record, s.record = some record ∧ record.coordinator.lifecycle = .aborted ∧
      record.coordinator.completedChunkCount = 2 ∧
      (s.jobReceipts record).map (fun row => (row.1, row.2.progress)) =
        [(0, .completed), (1, .projectionPending)] :=
  ⟨_, rfl, by decide +kernel, by decide +kernel, by decide +kernel⟩

end Gleaph.Bulk
