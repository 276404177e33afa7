import Gleaph.Bulk.Calls

/-!
# Gleaph.Bulk.Job

The receipts of a job and its counters.

`Store.Sound` says that the receipts are those of the current job, that they
are the accepted prefix and the chunk being worked on, and that the prefix is
what is completed.  Every step and every admission keep it (`Sound.step`,
`Sound.admission`), and so does every move of a receipt (`Sound.move`) but one: a completion of a chunk
that is completed already, while the job aborts a later one that is committed
on the Graph (`Stale`).
-/

namespace Gleaph.Bulk

open BulkLoadLifecycle BulkLoadCoordinator

/-- How many chunks a job has accepted. -/
def BulkLoadCoordinator.accepted (c : BulkLoadCoordinator) : Nat :=
  c.nextChunkIndex + if c.lifecycle.activeChunk.isSome then 1 else 0

theorem activeChunk_of_isTerminal {lifecycle : BulkLoadLifecycle} (h : lifecycle.isTerminal) :
    lifecycle.activeChunk = none := by
  cases lifecycle <;> simp_all [isTerminal, activeChunk]

/-- The parent and the receipts of a job fit. -/
structure JobSound (c : BulkLoadCoordinator) (receipt : Nat → Option BulkLoadChunkReceipt) :
    Prop where
  valid : c.Valid
  present : ∀ i, (receipt i).isSome ↔ c.receiptGcCursor.getD 0 ≤ i ∧ i < c.accepted
  completed : ∀ {i child}, receipt i = some child →
    (child.progress = .completed ↔ i < c.nextChunkIndex)
  active : ∀ {k}, c.lifecycle.activeChunk = some k → k = c.nextChunkIndex
  cursor : c.receiptGcCursor.getD 0 ≤ c.nextChunkIndex

namespace Store

variable {s s' : Store} {env : BulkEnv} {job chunk : Nat}

/-- The store holds receipts of the current job only. -/
structure Owned (s : Store) : Prop where
  id_le : ∀ {record}, s.record = some record → record.mutationId ≤ s.counter
  others : ∀ {job}, (∀ {record}, s.record = some record → record.mutationId ≠ job) →
    ∀ chunk, s.receipt job chunk = none

/-- The receipts are those of the current job, and they fit its parent. -/
structure Sound (s : Store) : Prop where
  owned : s.Owned
  job : ∀ {record}, s.record = some record →
    JobSound record.coordinator (s.receipt record.mutationId)

/-- The chunk is completed, and the job aborts the next one, which the Graph
has committed. -/
def Stale (s : Store) (job chunk : Nat) : Prop :=
  ∃ record ∈ s.record, record.mutationId = job ∧
    record.coordinator.lifecycle = .abortPending record.coordinator.nextChunkIndex ∧
    record.coordinator.committedChunkCount = record.coordinator.nextChunkIndex + 1 ∧
    ∃ child ∈ s.receipt job chunk, child.progress = .completed

instance (s : Store) (job chunk : Nat) : Decidable (s.Stale job chunk) :=
  inferInstanceAs (Decidable (∃ record ∈ s.record, _ ∧ _ ∧ _ ∧ ∃ child ∈ _, _))

theorem owned_fresh : fresh.Owned where
  id_le := by simp [fresh]
  others _ _ := rfl

theorem sound_fresh : fresh.Sound where
  owned := owned_fresh
  job := by simp [fresh]

/-! ### Receipts of other jobs -/

/-- A job other than the current one is not its record's. -/
theorem ne_of_record {record : BulkLoadRecord} (hrecord : s.record = some record)
    (hne : record.mutationId ≠ job) : ∀ {record'}, s.record = some record' → record'.mutationId ≠ job := by
  intro record' hrecord'
  cases hrecord.symm.trans hrecord'
  exact hne

/-- The receipts change for the current job only. -/
theorem Owned.write {record : BulkLoadRecord} (h : s.Owned) (hcounter : s.counter ≤ s'.counter)
    (hrecord : s.record = some record) (hrecord' : s'.record = some record')
    (hid : record'.mutationId = record.mutationId)
    (hreceipt : ∀ {job}, record.mutationId ≠ job → ∀ chunk, s'.receipt job chunk = s.receipt job
      chunk) :
    s'.Owned where
  id_le {record''} hrecord'' := by
    cases hrecord'.symm.trans hrecord''
    exact hid ▸ (h.id_le hrecord).trans hcounter
  others {job} hother chunk := by
    have hne : record.mutationId ≠ job := hid ▸ hother hrecord'
    rw [hreceipt hne]
    exact h.others (ne_of_record hrecord hne) chunk

theorem receipt_putReceipt_of_ne (hne : job ≠ job') (i : Nat) :
    (s.putReceipt job chunk child).receipt job' i = s.receipt job' i := by
  rw [receipt_putReceipt, if_neg fun heq => hne heq.1.symm]

theorem Owned.move (h : s.Owned) (hmove : Moved env told ends s job chunk s') : s'.Owned := by
  obtain ⟨record, child, child', record', hrecord, rfl, -, -, -, -, -, hid, -, rfl⟩ := hmove
  exact h.write le_rfl hrecord rfl hid fun hne i => receipt_putReceipt_of_ne hne i

theorem Owned.admission (h : s.Owned) (hadmission : Admission s job chunk s') : s'.Owned := by
  cases hadmission with
  | same => exact h
  | admits hrecord hjob _ _ _ _ _ _ hid =>
    subst hjob
    exact h.write (Nat.le_succ _) hrecord rfl hid fun hne i => receipt_putReceipt_of_ne hne i

theorem Owned.step (h : s.Owned) (hstep : Step s s') : s'.Owned := by
  cases hstep with
  | same => exact h
  | allocates => exact ⟨fun hrecord => (h.id_le hrecord).trans (Nat.le_succ _), h.others⟩
  | starts hfree =>
    refine ⟨?_, fun _ chunk => h.others (by simp [hfree]) chunk⟩
    rintro _ ⟨⟩
    exact le_rfl
  | ends hrecord hid => exact h.write le_rfl hrecord rfl hid fun _ _ => rfl
  | collects hrecord =>
    refine h.write le_rfl hrecord rfl rfl fun hne i => ?_
    rw [receipt_putRecord, receipt_removeReceipts, if_neg fun heq => hne heq.1.symm]
  | rewinds hrecord => exact h.write le_rfl hrecord rfl rfl fun _ _ => rfl
  | @forgets record hrecord hgone =>
    refine ⟨by simp, fun {job} _ chunk => ?_⟩
    by_cases hjob : record.mutationId = job
    · exact hjob ▸ hgone chunk
    · exact h.others (ne_of_record hrecord hjob) chunk

/-- The receipts of the current job after one of them is written. -/
theorem receipt_putChild {record : BulkLoadRecord} (s : Store) (chunk : Nat)
    (child : BulkLoadChunkReceipt) (counter : Nat) (hid : record'.mutationId = record.mutationId) :
    (({ s with counter }.putReceipt record.mutationId chunk child).putRecord record').receipt
        record'.mutationId =
      fun i => if i = chunk then some child else s.receipt record.mutationId i := by
  funext i
  rw [receipt_putRecord, receipt_putReceipt, hid]
  simp only [true_and]
  rfl

end Store

/-! ## A receipt moves -/

section Moves

variable {receipt : Nat → Option BulkLoadChunkReceipt}

variable (h : JobSound c receipt)

include h

theorem JobSound.lt_accepted (hi : receipt i = some child) : i < c.accepted :=
  ((h.present i).mp (by simp [hi])).2

/-- A receipt takes the place of one that is as complete. -/
theorem JobSound.replace (hvalid : c'.Valid) (hi : receipt i = some child)
    (hprogress : child'.progress = .completed ↔ child.progress = .completed)
    (hnext : c'.nextChunkIndex = c.nextChunkIndex) (hlifecycle : c'.lifecycle = c.lifecycle)
    (hgc : c'.receiptGcCursor = c.receiptGcCursor) :
    JobSound c' fun k => if k = i then some child' else receipt k where
  valid := hvalid
  present k := by
    have haccepted : c'.accepted = c.accepted := by simp [accepted, hnext, hlifecycle]
    rw [hgc, haccepted, ← h.present k]
    by_cases hk : k = i <;> simp [hk, hi]
  completed {k child''} hk := by
    rw [hnext]
    split_ifs at hk with hki
    · cases hk
      rw [hprogress, hki, h.completed hi]
    · exact h.completed hk
  active hk := by rw [hnext]; exact h.active (hlifecycle ▸ hk)
  cursor := by rw [hnext, hgc]; exact h.cursor

/-- The chunk a job works on is completed. -/
theorem JobSound.complete (hvalid : c'.Valid) (hi : receipt i = some child)
    (hpending : child.progress ≠ .completed) (hdone : child'.progress = .completed)
    (hactive : c.lifecycle.activeChunk.isSome) (hleft : c'.lifecycle.activeChunk = none)
    (hnext : c'.nextChunkIndex = c.nextChunkIndex + 1)
    (hgc : c'.receiptGcCursor = c.receiptGcCursor) :
    JobSound c' fun k => if k = i then some child' else receipt k := by
  have hge : ¬ i < c.nextChunkIndex := fun hlt => hpending ((h.completed hi).mpr hlt)
  have haccepted : c.accepted = c.nextChunkIndex + 1 := by simp [accepted, hactive]
  have haccepted' : c'.accepted = c.nextChunkIndex + 1 := by
    simp [accepted, hleft, hnext]
  have hieq : i = c.nextChunkIndex := by
    have := h.lt_accepted hi
    omega
  have hcursor := h.cursor
  refine ⟨hvalid, fun k => ?_, fun {k child''} hk => ?_, by simp [hleft], by rw [hgc, hnext]; omega⟩
  · rw [hgc, haccepted', ← haccepted, ← h.present k]
    by_cases hk : k = i <;> simp [hk, hi]
  rw [hnext]
  split_ifs at hk with hki
  · cases hk
    simp only [hdone, true_iff]
    omega
  · rw [h.completed hk]
    omega

/-- The receipts before a new cursor of a terminal job are collected. -/
theorem JobSound.collect {cursor : Nat}
    (hvalid : Valid { c with receiptGcCursor := some cursor })
    (hlt : cursor ≤ c.nextChunkIndex) (hle : c.receiptGcCursor.getD 0 ≤ cursor)
    (hreceipt : ∀ i, receipt' i = if i < cursor then none else receipt i) :
    JobSound { c with receiptGcCursor := some cursor } receipt' where
  valid := hvalid
  present k := by
    rw [hreceipt]
    split_ifs with hk
    · simp [hk]
    rw [h.present]
    simp only [Option.getD_some, accepted]
    omega
  completed {k child} hk := by
    rw [hreceipt] at hk
    split_ifs at hk
    exact h.completed hk
  active hk := h.active hk
  cursor := hlt

end Moves

namespace Store

variable {job chunk : Nat}

/-- A receipt that is not stale moves. -/
theorem Sound.move (h : s.Sound) (hmove : Moved env told ends s job chunk s')
    (hstale : ¬ s.Stale job chunk) : s'.Sound := by
  refine ⟨h.owned.move hmove, ?_⟩
  obtain ⟨record, child, child', record', hrecord, rfl, hvalid, hgc, hchild, hstep, -, hid, hvalid',
    rfl⟩ := hmove
  rintro _ ⟨⟩
  have hjob := h.job hrecord
  have hreceipt := receipt_putChild s chunk child' s.counter hid
  rw [hreceipt]
  generalize hc' : record'.coordinator = c' at hstep hvalid' ⊢
  cases hstep with
  | same => exact hjob.replace hvalid hchild Iff.rfl rfl rfl rfl
  | moves hpending hstill _ _ hnext hlifecycle hgc' =>
    exact hjob.replace hvalid' hchild (by simp [hpending, hstill]) hnext hlifecycle hgc'
  | completes _ hpending hdone _ hnext hactive hleft hgc' =>
    exact hjob.complete hvalid' hchild hpending hdone hactive hleft hnext hgc'
  | repeats hdone haborting hnext hcommitted haborted _ =>
    -- The counters of the ended job tell that the aborted chunk was committed.
    have hcount := hvalid'.committed (by simp [haborted, activeChunk])
    have hk := hvalid.aborting haborting
    exact absurd ⟨record, hrecord, rfl, hk ▸ haborting, by omega, child, hchild, hdone⟩ hstale

/-- An admission of a chunk. -/
theorem Sound.admission (h : s.Sound) (hadmission : Admission s job chunk s') : s'.Sound := by
  refine ⟨h.owned.admission hadmission, ?_⟩
  cases hadmission with
  | same => exact h.job
  | @admits record record' child hrecord hjob' hopened hnext hgc habsent hpending _ hid happending hvalid =>
    subst hjob'
    rintro _ ⟨⟩
    have hreceipt := receipt_putChild s chunk child (s.counter + 1) hid
    rw [hreceipt]
    obtain ⟨fingerprint, id, hc⟩ := happending
    have hjob := h.job hrecord
    have haccepted : record.coordinator.accepted = record.coordinator.nextChunkIndex := by
      simp [accepted, hopened, activeChunk]
    rw [hc] at hvalid ⊢
    refine ⟨hvalid, fun i => ?_, fun {i child'} hi => ?_, ?_, hjob.cursor⟩
    · have hpresent := hjob.present i
      rw [haccepted, hgc] at hpresent
      simp only [hgc, accepted, activeChunk]
      by_cases hi : i = chunk
      · simp [hi, hnext]
      rw [if_neg hi, hpresent]
      simp
      omega
    · split_ifs at hi with hichunk
      · cases hi
        simp [hpending, hichunk, hnext]
      · exact hjob.completed hi
    · simp [activeChunk, hnext]

/-- A step of the store. -/
theorem Sound.step (h : s.Sound) (hstep : Step s s') : s'.Sound := by
  refine ⟨h.owned.step hstep, ?_⟩
  cases hstep with
  | same => exact h.job
  | allocates => exact h.job
  | @starts target hfree hvalid =>
    rintro _ ⟨⟩
    have hnone : ∀ i, s.receipt (s.counter + 1) i = none := h.owned.others (by simp [hfree])
    refine ⟨hvalid, fun i => ?_, fun {i child} hi => ?_, by simp [activeChunk], le_rfl⟩
    · change (s.receipt (s.counter + 1) i).isSome ↔ _
      simp [hnone, accepted, activeChunk]
    · cases (hnone i).symm.trans hi
  | @ends record record' hrecord hid hnext hactive hgc hvalid =>
    rintro _ ⟨⟩
    have hjob := h.job hrecord
    have haccepted : record'.coordinator.accepted = record.coordinator.accepted := by
      simp [accepted, hnext, hactive]
    rw [hid]
    refine ⟨hvalid, fun i => ?_, fun hi => ?_, fun hk => ?_, ?_⟩
    · rw [hgc, haccepted, ← hjob.present]
      rfl
    · rw [hnext, hjob.completed hi]
    · rw [hnext]
      exact hjob.active (hactive ▸ hk)
    · rw [hnext, hgc]
      exact hjob.cursor
  | @collects record rows cursor hrecord hterminal hrows hnonempty hcursor hvalid =>
    rintro _ ⟨⟩
    have hjob := h.job hrecord
    have hactive := activeChunk_of_isTerminal hterminal
    have hmem : ∀ i, i ∈ rows.map Prod.fst ↔
        record.coordinator.receiptGcCursor.getD 0 ≤ i ∧ i < cursor := by
      intro i
      rw [hrows.keys, List.mem_range'_1, hcursor]
    -- The last receipt collected is one of the accepted prefix.
    have hlt : cursor ≤ record.coordinator.nextChunkIndex := by
      have hlength := List.length_pos_iff.mpr hnonempty
      obtain ⟨row, hrow, hlast⟩ := List.mem_map.mp ((hmem (cursor - 1)).mpr ⟨by omega, by omega⟩)
      have haccepted := hjob.lt_accepted (hrows.stored row hrow)
      simp only [accepted, hactive] at haccepted
      simp at haccepted
      omega
    refine hjob.collect hvalid hlt (by omega) fun i => ?_
    rw [receipt_putRecord, receipt_removeReceipts]
    by_cases hi : i < cursor
    · rw [if_pos hi]
      split_ifs with hremoved
      · rfl
      have hbefore : ¬ record.coordinator.receiptGcCursor.getD 0 ≤ i :=
        fun hle => hremoved ⟨rfl, (hmem i).mpr ⟨hle, hi⟩⟩
      by_contra hsome
      exact hbefore ((hjob.present i).mp (Option.isSome_iff_ne_none.mpr hsome)).1
    · rw [if_neg hi, if_neg fun hremoved => hi ((hmem i).mp hremoved.2).2]
  | @rewinds record chunk child hrecord hleft hgone hvalid =>
    have hjob := h.job hrecord
    have hbefore := ((hjob.present chunk).mp (by simp [hleft])).1
    cases (hgone chunk hbefore).symm.trans hleft
  | forgets => simp

end Store

end Gleaph.Bulk
