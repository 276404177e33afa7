import Gleaph.Bulk.Rows
import Gleaph.Bulk.Job

/-!
# Gleaph.Bulk.Chunks

Update chunks over the life of the store.

A chunk is admitted once: it gets a receipt, the receipt is pending, then
completed, then collected, and no second receipt is ever made for it.
`Store.Later` says this of two states of the store, and every call leads to a
later one.
-/

namespace Gleaph.Bulk

open BulkLoadLifecycle

/-- The receipt of an update chunk that is not completed. -/
structure BulkLoadChunkReceipt.PendingUpdate (child : BulkLoadChunkReceipt) : Prop where
  update : child.updatedRowCount.isSome
  pending : child.progress ≠ .completed

namespace Store

variable {s s' s'' : Store} {env : BulkEnv} {job chunk : Nat} {owner : BulkLoadChunkReceiptKey}

def receiptAt (s : Store) (owner : BulkLoadChunkReceiptKey) : Option BulkLoadChunkReceipt :=
  s.receipt owner.jobMutationId owner.chunkIndex

/-- The chunk is an update chunk that is not completed. -/
def Pending (s : Store) (owner : BulkLoadChunkReceiptKey) : Prop :=
  ∃ child, s.receiptAt owner = some child ∧ child.PendingUpdate

theorem replayRequired_iff : Router.bulkLoadUpdateReplayRequired s owner = true ↔ s.Pending owner := by
  unfold Router.bulkLoadUpdateReplayRequired Pending receiptAt
  cases s.receipt owner.jobMutationId owner.chunkIndex with
  | none => simp
  | some child =>
    have hcompleted : child.progress.isCompleted = false ↔ child.progress ≠ .completed := by
      cases child.progress <;> simp [BulkLoadChunkProgress.isCompleted]
    simp only [Option.any_some, Bool.and_eq_true, Bool.not_eq_true', hcompleted, Option.some.injEq,
      exists_eq_left']
    exact ⟨fun h => ⟨h.1, h.2⟩, fun h => ⟨h.update, h.pending⟩⟩

/-- The chunk has its receipt, or will not get one: its job is not the current
one, or is being collected. -/
structure Admitted (s : Store) (owner : BulkLoadChunkReceiptKey) : Prop where
  id_le : owner.jobMutationId ≤ s.counter
  receipt : (s.receiptAt owner).isSome ∨ ∀ {record}, s.record = some record →
    record.mutationId = owner.jobMutationId → record.coordinator.receiptGcCursor.isSome

/-- What is known of the chunks of a later store. -/
structure Later (s s' : Store) : Prop where
  counter : s.counter ≤ s'.counter
  admitted : ∀ {owner}, s.Admitted owner → s'.Admitted owner
  pending : ∀ {owner child'}, s.Admitted owner → s'.receiptAt owner = some child' →
    child'.PendingUpdate → ∃ child, s.receiptAt owner = some child ∧ child.PendingUpdate ∧
      child.resolvedUpdateVertexIds = child'.resolvedUpdateVertexIds

theorem Later.refl (s : Store) : s.Later s :=
  ⟨le_rfl, id, fun _ hchild hpending => ⟨_, hchild, hpending, rfl⟩⟩

theorem Later.trans (h : s.Later s') (h' : s'.Later s'') : s.Later s'' where
  counter := h.counter.trans h'.counter
  admitted ha := h'.admitted (h.admitted ha)
  pending ha hchild hpending := by
    obtain ⟨child', hchild', hpending', hids'⟩ := h'.pending (h.admitted ha) hchild hpending
    obtain ⟨child, hchild, hpending, hids⟩ := h.pending ha hchild' hpending'
    exact ⟨child, hchild, hpending, hids.trans hids'⟩

/-- A chunk that is pending later was pending. -/
theorem Later.pending_of (h : s.Later s') (ha : s.Admitted owner) (hpending : s'.Pending owner) :
    s.Pending owner := by
  obtain ⟨child', hchild', hpending'⟩ := hpending
  obtain ⟨child, hchild, hpending, -⟩ := h.pending ha hchild' hpending'
  exact ⟨child, hchild, hpending⟩

variable {child child' : BulkLoadChunkReceipt} {record : BulkLoadRecord}

/-- The chunk of a receipt is admitted. -/
theorem Owned.admitted (h : s.Owned) (hchild : s.receiptAt owner = some child) :
    s.Admitted owner := by
  refine ⟨?_, .inl (by simp [hchild])⟩
  by_contra hlt
  have hne : ∀ {record}, s.record = some record → record.mutationId ≠ owner.jobMutationId :=
    fun hrecord heq => hlt (heq ▸ h.id_le hrecord)
  have hnone : s.receiptAt owner = none := h.others hne owner.chunkIndex
  cases hchild.symm.trans hnone

/-- The chunk of a receipt is one of the current job. -/
theorem Owned.current (h : s.Owned) (hchild : s.receiptAt owner = some child) :
    ∃ record, s.record = some record ∧ record.mutationId = owner.jobMutationId := by
  by_contra hnone
  push Not at hnone
  have hgone : s.receiptAt owner = none := h.others (fun {record} => hnone record) owner.chunkIndex
  cases hchild.symm.trans hgone

/-! ## Every call leads to a later store -/

theorem receiptAt_putReceipt {counter : Nat} (owner : BulkLoadChunkReceiptKey) :
    (({ s with counter }.putReceipt job chunk child).putRecord record).receiptAt owner =
      if owner = ⟨job, chunk⟩ then some child else s.receiptAt owner := by
  unfold receiptAt
  rw [receipt_putRecord, receipt_putReceipt]
  have : owner = ⟨job, chunk⟩ ↔ owner.jobMutationId = job ∧ owner.chunkIndex = chunk := by
    cases owner
    simp
  simp only [this]
  rfl

/-- A receipt that is pending after a move was pending, with the same targets. -/
theorem ChildStep.pending_of (h : ChildStep told ends child c child' c')
    (hpending : child'.PendingUpdate) :
    child.PendingUpdate ∧ child.resolvedUpdateVertexIds = child'.resolvedUpdateVertexIds := by
  cases h with
  | same => exact ⟨hpending, rfl⟩
  | moves hbefore _ hids hcount =>
    refine ⟨⟨?_, hbefore⟩, hids.symm⟩
    rcases hcount with hcount | ⟨hupdate, -, -⟩
    · exact hcount ▸ hpending.update
    · exact hupdate
  | completes _ _ hdone => exact absurd hdone hpending.pending
  | repeats => exact ⟨hpending, rfl⟩

theorem later_move (hmove : Moved env told ends s job chunk s') : s.Later s' := by
  obtain ⟨record, child, child', record', hrecord, hjob, -, -, hchild, hstep, -, hid, -, rfl⟩ := hmove
  have hchild : s.receiptAt ⟨job, chunk⟩ = some child := hchild
  refine ⟨le_rfl, fun {owner} ha => ⟨ha.id_le, ?_⟩, fun {owner child''} ha hchild'' hpending => ?_⟩
  · rcases ha.receipt with hsome | hgc
    · left
      rw [receiptAt_putReceipt]
      split_ifs
      · rfl
      · exact hsome
    · right
      rintro _ ⟨⟩ hcurrent
      have hkept : record'.coordinator.receiptGcCursor = record.coordinator.receiptGcCursor := by
        generalize record.coordinator = c, record'.coordinator = c' at hstep ⊢
        cases hstep <;> first | rfl | assumption
      rw [hkept]
      exact hgc hrecord (hjob.trans (hid.symm.trans hcurrent))
  · rw [receiptAt_putReceipt] at hchild''
    split_ifs at hchild'' with howner
    · cases hchild''
      obtain ⟨hpending', hids⟩ := hstep.pending_of hpending
      exact ⟨child, howner ▸ hchild, hpending', hids⟩
    · exact ⟨child'', hchild'', hpending, rfl⟩

/-- A chunk that is admitted anew was not admitted before. -/
theorem not_admitted_of_absent (hrecord : s.record = some record) (hjob : record.mutationId = job)
    (hgc : record.coordinator.receiptGcCursor = none) (habsent : s.receipt job chunk = none) :
    ¬ s.Admitted ⟨job, chunk⟩ := by
  rintro ⟨-, hsome | hgone⟩
  · simp [receiptAt, habsent] at hsome
  · have := hgone hrecord hjob
    simp [hgc] at this

theorem later_admission (hadmission : Admission s job chunk s') : s.Later s' := by
  cases hadmission with
  | same => exact .refl s
  | @admits record record' child hrecord hjob _ _ hgc habsent _ _ hid happending =>
    have hnot := not_admitted_of_absent hrecord hjob hgc habsent
    obtain ⟨fingerprint, id, hc⟩ := happending
    refine ⟨Nat.le_succ _, fun {owner} ha => ⟨ha.id_le.trans (Nat.le_succ _), ?_⟩,
      fun {owner child''} ha hchild'' hpending => ?_⟩
    · rcases ha.receipt with hsome | hgc
      · left
        rw [receiptAt_putReceipt]
        split_ifs
        · rfl
        · exact hsome
      · right
        rintro _ ⟨⟩ hcurrent
        rw [hc]
        exact hgc hrecord (hjob.trans (hid.symm.trans hcurrent))
    · have hne : owner ≠ ⟨job, chunk⟩ := fun howner => hnot (howner ▸ ha)
      rw [receiptAt_putReceipt, if_neg hne] at hchild''
      exact ⟨child'', hchild'', hpending, rfl⟩

/-- The receipts stay or are taken away, while the job is not current or is
being collected. -/
theorem later_of_receipts (hcounter : s.counter ≤ s'.counter)
    (hreceipts : ∀ owner child, s'.receiptAt owner = some child → s.receiptAt owner = some child)
    (hadmitted : ∀ {owner}, s.Admitted owner → (s'.receiptAt owner).isSome ∨
      ∀ {record}, s'.record = some record → record.mutationId = owner.jobMutationId →
        record.coordinator.receiptGcCursor.isSome) : s.Later s' where
  counter := hcounter
  admitted ha := ⟨ha.id_le.trans hcounter, hadmitted ha⟩
  pending _ hchild hpending := ⟨_, hreceipts _ _ hchild, hpending, rfl⟩

theorem later_step (hstep : Step s s') : s.Later s' := by
  cases hstep with
  | same => exact .refl s
  | allocates => exact later_of_receipts (Nat.le_succ _) (fun _ _ => id) fun ha => ha.receipt
  | starts =>
    refine later_of_receipts (Nat.le_succ _) (fun _ _ => id) fun ha => .inr ?_
    rintro _ ⟨⟩ hcurrent
    have := ha.id_le
    simp only at hcurrent
    omega
  | ends hrecord hid _ _ hgc =>
    refine later_of_receipts le_rfl (fun _ _ => id) fun ha => ha.receipt.imp_right fun hgone => ?_
    rintro _ ⟨⟩ hcurrent
    rw [hgc]
    exact hgone hrecord (hid.symm.trans hcurrent)
  | @collects record rows cursor hrecord =>
    refine later_of_receipts le_rfl (fun owner child hchild => ?_) fun {owner} ha => ?_
    · unfold receiptAt at hchild ⊢
      rw [receipt_putRecord, receipt_removeReceipts] at hchild
      split_ifs at hchild
      exact hchild
    by_cases hjob : record.mutationId = owner.jobMutationId
    · right
      rintro _ ⟨⟩ -
      rfl
    refine ha.receipt.imp (fun hsome => ?_) fun _ => ?_
    · unfold receiptAt at hsome ⊢
      rwa [receipt_putRecord, receipt_removeReceipts, if_neg fun h => hjob h.1.symm]
    · rintro _ ⟨⟩ hcurrent
      exact absurd hcurrent hjob
  | rewinds =>
    refine later_of_receipts le_rfl (fun _ _ => id) fun _ => .inr ?_
    rintro _ ⟨⟩ -
    rfl
  | forgets => exact later_of_receipts le_rfl (fun _ _ => id) fun _ => .inr (by simp)

end Store

end Gleaph.Bulk
