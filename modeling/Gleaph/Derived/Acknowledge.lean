import Gleaph.Derived.Drain

/-!
# Gleaph.Derived.Acknowledge

What a pass that is alone on its queue knows.

No one else removes rows from a queue that a single pass drains, and numbers
handed out in the meantime are greater than all in the queue.  So everything
the pass holds is still there under its number (`SuspendedPass.Held`), and a
reply removes exactly the rows it acknowledges (`Acknowledges`).
-/

namespace Gleaph

open List

variable {q : DurableQueue} {clients : DrainClients} {store store' : DerivedIndexStore}

/-- The numbers a reply acknowledges. -/
def Await.removed (await : Await) (reply : Reply) : List Nat :=
  (await.unacked.take (await.acknowledged reply)).map (·.1)

/-- The rows a reply acknowledges leave the queue, the others stay, and the
pass goes on. -/
structure Acknowledges (clients : DrainClients) (q : DurableQueue) (store : DerivedIndexStore)
    (await : Await) (rest : List (Nat × DurableOp)) (reply : Reply) (store' : DerivedIndexStore)
    (status : DrainStatus) : Prop where
  postings : store'.postingRows q =
    (store.postingRows q).filter fun row => row.1 ∉ await.removed reply
  inherited : ∀ row ∈ store'.rows q, row.2.op.isPosting → row ∈ store.rows q
  stays : ∀ row ∈ store.rows q, row.1 ∉ await.removed reply →
    ∃ row', (row.1, row') ∈ store'.rows q ∧ row'.op = row.2.op
  count : ∀ group operations, await = .postingBatch group operations →
    await.acknowledged reply ≤ operations.length
  follows : status.Follows (await.unacked.drop (await.acknowledged reply) ++ rest) ∨
    await.Finished reply ∧ status.Follows rest
  sent : status.WellSent clients

open DerivedIndexStore

/-- A row that a vector outcome does not remove stays, perhaps set aside. -/
theorem stays_of_applyVectorOutcome (h : store.applyVectorOutcome submitted outcome = .ok store')
    (hrow : row ∈ store.rows .derivedIndexOutbox)
    (hkept : row.1 ∉ (submitted.take outcome.applied).map (·.1)) :
    ∃ row', (row.1, row') ∈ store'.rows .derivedIndexOutbox ∧ row'.op = row.2.op := by
  obtain ⟨-, -, mid, hmid, hstore'⟩ := applyVectorOutcome_cases h
  have hmem : row ∈ mid.rows .derivedIndexOutbox := by
    rw [(removeAll_rows hmid).1]
    exact mem_filter.mpr ⟨hrow, by simpa using hkept⟩
  rcases hstore' with rfl | ⟨sequence, failed, reason, hfailed, -, rfl⟩
  · exact ⟨row.2, hmem, rfl⟩
  rw [quarantineRow, rows_setQueue_self]
  by_cases hseq : row.1 = sequence
  · refine ⟨failed.quarantine reason, SeqMap.mem_insert.mpr (.inl ⟨hseq, rfl⟩), ?_⟩
    have hfailed' : (row.1, failed) ∈ mid.rows .derivedIndexOutbox := hseq ▸ hfailed
    rw [DurableRow.op_quarantine, SeqMap.row_unique hfailed' hmem]
  · exact ⟨row.2, SeqMap.mem_insert.mpr (.inr ⟨hseq, hmem⟩), rfl⟩

/-- A reply ends the pass or acknowledges rows. -/
theorem Resumed.ends_or_acknowledges (h : Resumed clients q store await rest reply store' status) :
    (store' = store ∧ ∃ result, status = .done result) ∨
      Acknowledges clients q store await rest reply store' status := by
  cases h with
  | ended e => exact .inl ⟨rfl, _, rfl⟩
  | acknowledged hstore hcount hfollows hsent =>
    obtain ⟨hrows, -, -⟩ := removeAll_rows hstore
    refine .inr ⟨?_, fun row hrow _ => ?_, fun row hrow hkept => ?_, hcount, hfollows, hsent⟩
    · rw [postingRows, postingRows, hrows]
      exact filter_comm ..
    · rw [hrows] at hrow
      exact (mem_filter.mp hrow).1
    refine ⟨row.2, ?_, rfl⟩
    rw [hrows]
    exact mem_filter.mpr ⟨hrow, decide_eq_true hkept⟩
  | @vectors _ _ submitted outcome howner hkind hstore hnumbers hfollows hsent =>
    subst howner
    obtain ⟨hpostings, -, -, -⟩ := applyVectorOutcome_spec hstore
    obtain ⟨hvector, hpeek, -⟩ := applyVectorOutcome_cases hstore
    refine .inr ⟨?_, fun row hrow hposting => ?_, fun row hrow hkept => ?_, ?_,
      .inl hfollows, hsent⟩
    · rw [hpostings]
      refine (filter_eq_self.mpr fun row hrow => ?_).symm
      obtain ⟨hmem, hposting⟩ := mem_filter.mp hrow
      simp only [decide_eq_true_eq]
      -- the numbers of a vector batch are numbers of vector rows
      intro hremoved
      rw [Await.removed, ← hnumbers, map_take] at hremoved
      have hisVector :=
        (vector_of_peek hvector hpeek hmem (mem_of_mem_take hremoved)).2
      simp [isPosting_of_isVector hisVector] at hposting
    · have hmem : row ∈ store'.postingRows .derivedIndexOutbox :=
        mem_filter.mpr ⟨hrow, hposting⟩
      rw [hpostings] at hmem
      exact (mem_filter.mp hmem).1
    · exact stays_of_applyVectorOutcome hstore hrow (by rwa [hnumbers])
    · rintro group operations rfl
      obtain ⟨_, _, _, hkind⟩ := hkind
      cases hkind

/-- The pass goes on with a last part of what it held. -/
theorem Acknowledges.follows_suffix
    (hack : Acknowledges clients q store await rest reply store' status) :
    status.unacked <:+ await.unacked.drop (await.acknowledged reply) ++ rest := by
  rcases hack.follows with hfollows | ⟨-, hfollows⟩
  · exact hfollows.suffix
  · exact hfollows.suffix.trans (suffix_append _ _)

/-! ## What the pass holds -/

namespace SuspendedPass

variable {pass : SuspendedPass} {reply : Reply} {n : Nat}

/-- All the pass holds is in the queue under its number. -/
structure Held (q : DurableQueue) (store : DerivedIndexStore) (pass : SuspendedPass) : Prop where
  sent : pass.await.WellSent pass.clients pass.rest
  stored : ∀ entry ∈ pass.unacked, ∃ row, (entry.1, row) ∈ store.rows q ∧ row.op = entry.2
  sorted : pass.unacked.Pairwise fun x y => x.1 < y.1

/-- What is acknowledged first, and the rest. -/
theorem unacked_split (pass : SuspendedPass) (n : Nat) :
    pass.unacked = pass.await.unacked.take n ++ (pass.await.unacked.drop n ++ pass.rest) := by
  rw [← append_assoc, take_append_drop]
  rfl

end SuspendedPass

theorem Acknowledges.unacked_suffix {pass : SuspendedPass}
    (hack : Acknowledges pass.clients q store pass.await pass.rest reply store' status) :
    status.unacked <:+ pass.unacked := by
  rw [SuspendedPass.unacked_split pass (pass.await.acknowledged reply)]
  exact hack.follows_suffix.trans (suffix_append _ _)

namespace SuspendedPass

variable {pass : SuspendedPass} {reply : Reply} {n : Nat}

namespace Held

theorem op_eq (hpass : pass.Held q store) (hentry : entry ∈ pass.unacked)
    (hrow : (entry.1, row) ∈ store.rows q) : row.op = entry.2 := by
  obtain ⟨row', hrow', hop⟩ := hpass.stored entry hentry
  rw [SeqMap.row_unique hrow hrow', hop]

/-- A pass that starts holds rows of the queue. -/
theorem of_drainQueue {await : Await} {rest : List (Nat × DurableOp)}
    (hdrain : drainQueue clients q store = .suspended await rest) :
    (⟨q, clients, await, rest⟩ : SuspendedPass).Held q store := by
  have hfollows : (drainQueue clients q store).Follows (store.peekQueue q) := drainQueue_follows
  have hsent : (drainQueue clients q store).WellSent clients := drainQueue_wellSent
  rw [hdrain] at hfollows hsent
  refine ⟨hsent, fun entry hentry => ?_, ?_⟩
  · obtain ⟨row, hrow, rfl⟩ := mem_map.mp (hfollows.suffix.subset hentry)
    exact ⟨row.2, (mem_filter.mp hrow).1, rfl⟩
  · refine List.Pairwise.sublist hfollows.suffix.sublist (pairwise_map.mpr ?_)
    exact (store.queues q).sorted.filter _

/-- New rows in the queue do not matter. -/
theorem of_subset (hpass : pass.Held q store) (h : store.rows q ⊆ store'.rows q) :
    pass.Held q store' where
  sent := hpass.sent
  stored := by
    intro entry hentry
    obtain ⟨row, hrow, hop⟩ := hpass.stored entry hentry
    exact ⟨row, h hrow, hop⟩
  sorted := hpass.sorted

theorem of_rows_eq (hpass : pass.Held q store) (h : store'.rows q = store.rows q) :
    pass.Held q store' := hpass.of_subset (by rw [h]; exact List.Subset.refl _)

end Held

/-- The pass goes on with what it held, as far as it is not acknowledged. -/
theorem Held.acknowledged (hpass : pass.Held q store) {await : Await} {rest : List (Nat × DurableOp)}
    (hack : Acknowledges pass.clients q store pass.await pass.rest reply store'
      (.suspended await rest)) : ({ pass with await, rest } : SuspendedPass).Held q store' := by
  have hsuffix : await.unacked ++ rest <:+ pass.unacked := hack.unacked_suffix
  refine ⟨hack.sent, fun entry hentry => ?_, hpass.sorted.sublist hsuffix.sublist⟩
  obtain ⟨row, hrow, hop⟩ := hpass.stored entry (hsuffix.subset hentry)
  obtain ⟨row', hrow', hop'⟩ := hack.stays _ hrow fun hmem => by
    obtain ⟨taken, htaken, heq⟩ := mem_map.mp hmem
    have hsorted := hpass.sorted
    rw [unacked_split pass (pass.await.acknowledged reply)] at hsorted
    have := (pairwise_append.mp hsorted).2.2 taken htaken entry (hack.follows_suffix.subset hentry)
    omega
  exact ⟨row', hrow', hop'.trans hop⟩

end SuspendedPass

end Gleaph
