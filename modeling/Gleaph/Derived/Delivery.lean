import Gleaph.Runs
import Gleaph.Derived.Drain

/-!
# Gleaph.Derived.Delivery

Undelivered index work is not dropped.

Any number of passes drain the two queues while mutations append to them; a
pass is suspended at each call and finds another queue when it resumes.  A row
has no identity of its own in the store, so the state carries one beside it:
`births` says with which append the row under a number came, and a pass keeps
the births of its snapshot.

A pass acknowledges by number.  Where a number was handed out again in the
meantime, another row than the delivered one is removed.  The theorem of this
file is that this is the only way to lose a row: in a run in which no number
is handed out while a suspended pass still holds it, every posting that leaves
a queue was read by the pass that removes it and is in the part of its batch
that the index reported as applied.
-/

namespace Gleaph

open DerivedIndexStore List

/-! ## Passes and appends side by side -/

/-- A suspended pass; `seen` are the births of the rows it read. -/
structure DrainPass extends SuspendedPass where
  seen : Nat → Nat

structure DeliveryState where
  store : DerivedIndexStore
  births : DurableQueue → Nat → Nat
  appends : Nat
  passes : List DrainPass

inductive DeliveryEvent where
  | outboxAppend (mutationId : Nat) (ops : List RepairPostingOp)
  | buildAppend (mutationId : Nat) (requests : List IndexBuildDmlRequest)
  | journalAppend (mutationId : Nat) (ops : List RepairPostingOp)
  | start (q : DurableQueue) (clients : DrainClients)
  | resume (pass : Nat) (reply : Reply)

namespace DeliveryState

/-- The state after an append: the rows under numbers that had none came with
it.  An append that panics changes nothing. -/
def appended (s : DeliveryState) (q : DurableQueue) : Except String DerivedIndexStore → DeliveryState
  | .error _ => s
  | .ok store =>
    { s with
      store
      births := fun q' sequence =>
        if q' = q ∧ (s.store.queues q).get sequence = none then s.appends
        else s.births q' sequence
      appends := s.appends + 1 }

/-- The state after a segment of a pass. -/
def resumed (s : DeliveryState) (i : Nat) (pass : DrainPass) :
    Except String (DerivedIndexStore × DrainStatus) → DeliveryState
  | .error _ => { s with passes := s.passes.eraseIdx i }
  | .ok (store, .done _) => { s with store, passes := s.passes.eraseIdx i }
  | .ok (store, .suspended await rest) =>
    { s with store, passes := s.passes.set i { pass with await, rest } }

def step (s : DeliveryState) : DeliveryEvent → DeliveryState
  | .outboxAppend mutationId ops =>
    s.appended .derivedIndexOutbox (s.store.derivedIndexOutboxAppend mutationId ops)
  | .buildAppend mutationId requests =>
    s.appended .derivedIndexOutbox (s.store.derivedIndexBuildOutboxAppend mutationId requests)
  | .journalAppend mutationId ops =>
    s.appended .repairJournal (s.store.repairJournalAppend mutationId ops)
  | .start q clients =>
    match drainQueue clients q s.store with
    | .done _ => s
    | .suspended await rest =>
      { s with passes := s.passes ++ [⟨⟨q, clients, await, rest⟩, s.births q⟩] }
  | .resume i reply =>
    match s.passes[i]? with
    | none => s
    | some pass =>
      s.resumed i pass
        (resume pass.clients pass.queue s.store pass.await pass.rest reply)

end DeliveryState

/-- The queue an event appends to. -/
def DeliveryEvent.appendsTo : DeliveryEvent → Option DurableQueue
  | .outboxAppend _ _ => some .derivedIndexOutbox
  | .buildAppend _ _ => some .derivedIndexOutbox
  | .journalAppend _ _ => some .repairJournal
  | _ => none

/-- No number is handed out while a suspended pass still holds it: the next
number of a queue that is appended to is behind all numbers the passes over it
have not acknowledged. -/
def HeldNumbersFree (s : DeliveryState) (event : DeliveryEvent) : Prop :=
  ∀ q, event.appendsTo = some q → ∀ pass ∈ s.passes, pass.queue = q →
    ∀ next, (s.store.queues q).nextSeq q.what = .ok next → ∀ entry ∈ pass.unacked, entry.1 < next

/-! ## The rows a pass holds -/

/-- A row that stands under a number a pass still holds is the row the pass
read there. -/
structure DeliveryInv (s : DeliveryState) : Prop where
  sent : ∀ pass ∈ s.passes, pass.await.WellSent pass.clients pass.rest
  same : ∀ pass ∈ s.passes, ∀ entry ∈ pass.unacked, ∀ row,
    (entry.1, row) ∈ s.store.rows pass.queue →
      row.op = entry.2 ∧ pass.seen entry.1 = s.births pass.queue entry.1

namespace DeliveryInv

variable (hinv : DeliveryInv s)

include hinv

theorem appended
    (hfree : ∀ pass ∈ s.passes, pass.queue = q → ∀ next,
      (s.store.queues q).nextSeq q.what = .ok next → ∀ entry ∈ pass.unacked, entry.1 < next) :
    DeliveryInv (s.appended q (s.store.append q what entries)) := by
  cases happend : s.store.append q what entries with
  | error e => exact hinv
  | ok store' =>
    obtain ⟨new, hrows, -, -, hnext, hother, -, -⟩ := append_spec happend
    refine ⟨hinv.sent, fun pass hpass entry hentry row hrow => ?_⟩
    simp only [DeliveryState.appended] at hrow ⊢
    by_cases hq : pass.queue = q
    · subst hq
      rw [hrows] at hrow
      rcases mem_append.mp hrow with hrow | hrow
      · have hget := SeqMap.get_eq_some.mpr hrow
        rw [if_neg (by simp [hget])]
        exact hinv.same pass hpass entry hentry row hrow
      · obtain ⟨next, hnext, hle⟩ := hnext _ hrow
        have := hfree pass hpass rfl next hnext entry hentry
        omega
    · rw [hother _ hq] at hrow
      rw [if_neg (by simp [hq])]
      exact hinv.same pass hpass entry hentry row hrow

theorem start (q : DurableQueue) (clients : DrainClients) :
    DeliveryInv (s.step (.start q clients)) := by
  simp only [DeliveryState.step]
  have hsent : (drainQueue clients q s.store).WellSent clients := drainQueue_wellSent
  have hunacked : (drainQueue clients q s.store).unacked <:+ s.store.peekQueue q :=
    drainQueue_follows.suffix
  cases hdrain : drainQueue clients q s.store with
  | done result => exact hinv
  | suspended await rest =>
    rw [hdrain] at hsent hunacked
    refine ⟨?_, ?_⟩
    · intro pass hpass
      rcases mem_append.mp hpass with hpass | hpass
      · exact hinv.sent pass hpass
      · obtain rfl := mem_singleton.mp hpass
        exact hsent
    intro pass hpass entry hentry row hrow
    rcases mem_append.mp hpass with hpass | hpass
    · exact hinv.same pass hpass entry hentry row hrow
    obtain rfl := mem_singleton.mp hpass
    obtain ⟨read, hread, rfl⟩ := mem_map.mp (hunacked.subset hentry)
    have hread := (mem_filter.mp hread).1
    exact ⟨by rw [SeqMap.row_unique hrow hread], rfl⟩

/-- A segment of a pass keeps what holds of the other passes and of itself. -/
theorem resumed {pass : DrainPass} (hpass : s.passes[i]? = some pass) (reply : Reply) :
    DeliveryInv (s.resumed i pass
      (resume pass.clients pass.queue s.store pass.await pass.rest reply)) := by
  have hmem : pass ∈ s.passes := mem_of_getElem? hpass
  cases hresume : resume pass.clients pass.queue s.store pass.await pass.rest reply with
  | error e =>
    exact ⟨fun pass hpass => hinv.sent pass (mem_of_mem_eraseIdx hpass),
      fun pass hpass => hinv.same pass (mem_of_mem_eraseIdx hpass)⟩
  | ok result =>
    obtain ⟨store', status⟩ := result
    have hcases := resume_cases (hinv.sent pass hmem) hresume
    -- a row that is still there was there with the same work
    have hsame : ∀ pass ∈ s.passes, ∀ entry ∈ pass.unacked, ∀ row,
        (entry.1, row) ∈ store'.rows pass.queue →
          row.op = entry.2 ∧ pass.seen entry.1 = s.births pass.queue entry.1 := by
      intro other hother entry hentry row hrow
      obtain ⟨⟨k, old⟩, hold, hk, hop, -⟩ := hcases.inherits other.queue _ hrow
      simp only at hk hop
      subst hk
      rw [← hop]
      exact hinv.same other hother entry hentry old hold
    cases status with
    | done result =>
      exact ⟨fun pass hpass => hinv.sent pass (mem_of_mem_eraseIdx hpass),
        fun pass hpass => hsame pass (mem_of_mem_eraseIdx hpass)⟩
    | suspended await rest =>
      refine ⟨?_, ?_⟩
      · intro other hother
        rcases mem_or_eq_of_mem_set hother with hother | rfl
        · exact hinv.sent other hother
        · exact hcases.wellSent
      · intro other hother entry hentry row hrow
        rcases mem_or_eq_of_mem_set hother with hother | rfl
        · exact hsame other hother entry hentry row hrow
        · exact hsame pass hmem entry (hcases.unacked_suffix.subset hentry) row hrow

theorem step {event : DeliveryEvent} (hfree : HeldNumbersFree s event) :
    DeliveryInv (s.step event) := by
  cases event with
  | outboxAppend mutationId ops | journalAppend mutationId ops =>
    exact hinv.appended fun pass hpass hq => hfree _ rfl pass hpass hq
  | buildAppend mutationId requests =>
    exact hinv.appended fun pass hpass hq => hfree _ rfl pass hpass hq
  | start q clients => exact hinv.start q clients
  | resume i reply =>
    simp only [DeliveryState.step]
    cases hpass : s.passes[i]? with
    | none => exact hinv
    | some pass => exact hinv.resumed hpass reply

end DeliveryInv

/-! ## What a step removes -/

/-- Every posting that the event takes from a queue was read, as this very row,
by the pass the event resumes, and is among the operations of its batch that
graph-index reports as applied. -/
def RemovesOnlyReported (s : DeliveryState) (event : DeliveryEvent) : Prop :=
  ∀ q sequence row, (sequence, row) ∈ s.store.rows q → row.op.isPosting →
    (sequence, row) ∉ (s.step event).store.rows q →
    ∃ i reply pass, event = .resume i reply ∧ s.passes[i]? = some pass ∧ pass.queue = q ∧
      (sequence, row.op) ∈ pass.await.reported reply ∧ pass.seen sequence = s.births q sequence

/-- An append takes nothing from a queue. -/
theorem mem_rows_appended {s : DeliveryState} (hrow : row ∈ s.store.rows q') :
    row ∈ (s.appended q (s.store.append q what entries)).store.rows q' := by
  cases happend : s.store.append q what entries with
  | error e => exact hrow
  | ok store' =>
    obtain ⟨new, hrows, -, -, -, hother, -, -⟩ := append_spec happend
    simp only [DeliveryState.appended]
    by_cases hq : q' = q
    · rw [hq, hrows]
      exact mem_append_left _ (hq ▸ hrow)
    · rwa [hother q' hq]

theorem DeliveryInv.removesOnlyReported {s : DeliveryState} (hinv : DeliveryInv s)
    (event : DeliveryEvent) : RemovesOnlyReported s event := by
  intro q sequence row hrow hposting hgone
  cases event with
  | outboxAppend mutationId ops | buildAppend mutationId requests | journalAppend mutationId ops =>
    exact absurd (mem_rows_appended hrow) hgone
  | start q' clients =>
    simp only [DeliveryState.step] at hgone
    split at hgone <;> exact absurd hrow hgone
  | resume i reply =>
    simp only [DeliveryState.step] at hgone
    cases hpass : s.passes[i]? with
    | none =>
      rw [hpass] at hgone
      exact absurd hrow hgone
    | some pass =>
      simp only [hpass] at hgone
      refine ⟨i, reply, pass, rfl, hpass, ?_⟩
      have hmem := mem_of_getElem? hpass
      cases hresume : resume pass.clients pass.queue s.store pass.await pass.rest reply with
      | error e =>
        rw [hresume] at hgone
        exact absurd hrow hgone
      | ok result =>
        obtain ⟨store', status⟩ := result
        have hgone : (sequence, row) ∉ store'.rows q := by
          rw [hresume] at hgone
          cases status <;> exact hgone
        cases resume_cases (hinv.sent pass hmem) hresume with
        | ended e => exact absurd hrow hgone
        | acknowledged hstore hcount hfollows hsent =>
          obtain ⟨hrows, hother, -⟩ := removeAll_rows hstore
          by_cases hq : q = pass.queue
          · subst hq
            -- the row is gone, so its number is one of the acknowledged ones
            have hnumber : sequence ∈ (pass.await.unacked.take
                (pass.await.acknowledged reply)).map (·.1) := by
              by_contra hnot
              rw [hrows] at hgone
              exact hgone (mem_filter.mpr ⟨hrow, by simpa using hnot⟩)
            obtain ⟨entry, hentry, rfl⟩ := mem_map.mp hnumber
            have hheld : entry ∈ pass.unacked :=
              mem_append_left _ (mem_of_mem_take hentry)
            obtain ⟨hop, hseen⟩ := hinv.same pass hmem entry hheld row hrow
            rw [hop] at hposting ⊢
            exact ⟨rfl, mem_reported hcount hentry hposting, hseen⟩
          · exact absurd (hother q hq ▸ hrow) hgone
        | vectors howner hkind hstore hnumbers hfollows hsent =>
          obtain ⟨hpostings, -, hother, -⟩ := applyVectorOutcome_spec hstore
          by_cases hq : q = .derivedIndexOutbox
          · subst hq
            have hmem : (sequence, row) ∈ store'.postingRows .derivedIndexOutbox := by
              rw [hpostings]
              exact mem_filter.mpr ⟨hrow, hposting⟩
            exact absurd (mem_filter.mp hmem).1 hgone
          · exact absurd (hother q hq ▸ hrow) hgone

/-- In every run from a state with no pass under way in which no number is
handed out while a pass still holds it, each step removes only postings that
graph-index reported as applied to the pass that read them. -/
theorem removes_only_reported {s : DeliveryState} (hpasses : s.passes = [])
    {events : List DeliveryEvent} {event : DeliveryEvent}
    (hrun : AllSteps DeliveryState.step HeldNumbersFree s (events ++ [event])) :
    RemovesOnlyReported (events.foldl DeliveryState.step s) event := by
  have hinit : DeliveryInv s := ⟨by simp [hpasses], by simp [hpasses]⟩
  have hinv : DeliveryInv (events.foldl DeliveryState.step s) :=
    foldl_invariant (fun s event hinv hfree => hinv.step hfree) hinit (allSteps_append.mp hrun).1
  exact hinv.removesOnlyReported event

/-! ## A number handed out twice -/

/-- A federated shard with empty queues. -/
def DeliveryState.fresh : DeliveryState := ⟨.fresh, fun _ _ => 0, 0, []⟩

/-- One mutation's row is delivered by two passes; the one that is answered
first empties the outbox, and the next mutation's row gets the same number. -/
def reusedNumber : List DeliveryEvent :=
  [.outboxAppend 1 [.label false 7 1], .start .derivedIndexOutbox smallPostings,
    .start .derivedIndexOutbox smallPostings, .resume 1 (.progress (.ok ⟨1, none⟩)),
    .outboxAppend 2 [.label false 7 2]]

/-- The other pass resumes, and its acknowledgement removes the new row, which
was never sent. -/
theorem drops_reused_number :
    ¬RemovesOnlyReported (reusedNumber.foldl DeliveryState.step .fresh)
      (.resume 0 (.progress (.ok ⟨1, none⟩))) := by
  intro h
  obtain ⟨i, reply, pass, hevent, hpass, -, hreported, -⟩ := h .derivedIndexOutbox 0
    (.derivedIndexOutbox (.pending ⟨2, .ordinary (.label false 7 2)⟩)) (by decide +kernel) rfl
    (by decide +kernel)
  cases hevent
  have hsent : ((reusedNumber.foldl DeliveryState.step .fresh).passes[0]?).map
      (fun pass => pass.await.reported (.progress (.ok ⟨1, none⟩))) =
        some [(0, .ordinary (.label false 7 1))] := by decide +kernel
  rw [hpass] at hsent
  have hsent : pass.await.reported (.progress (.ok ⟨1, none⟩)) =
      [(0, .ordinary (.label false 7 1))] := Option.some.inj hsent
  rw [hsent] at hreported
  exact absurd hreported (by decide)

/-- Two passes hold one row while the next mutation appends its own. -/
def heldNumber : List DeliveryEvent :=
  [.outboxAppend 1 [.label false 7 1], .start .derivedIndexOutbox smallPostings,
    .start .derivedIndexOutbox smallPostings, .outboxAppend 2 [.label false 7 2]]

/-- The row is still there, so the new one gets another number, and the first answer
removes what it reports. -/
theorem removes_only_reported_two_passes :
    RemovesOnlyReported (heldNumber.foldl DeliveryState.step .fresh)
      (.resume 1 (.progress (.ok ⟨1, none⟩))) := by
  refine removes_only_reported rfl ⟨?_, ?_, ?_, ?_, ?_, trivial⟩
  · intro q _ pass hpass
    cases hpass
  · intro q hq
    cases hq
  · intro q hq
    cases hq
  · intro q hq pass hpass _ next hnext entry hentry
    cases hq
    set before := (heldNumber.take 3).foldl DeliveryState.step .fresh
    have hfree : (before.store.queues .derivedIndexOutbox).nextSeq
        DurableQueue.derivedIndexOutbox.what = .ok 1 := by rfl
    have hheld : ∀ pass ∈ before.passes, ∀ entry ∈ pass.unacked, entry.1 < 1 := by
      decide +kernel
    cases hfree.symm.trans hnext
    exact hheld pass hpass entry hentry
  · intro q hq
    cases hq

/-! ## The floor under overlapping passes -/

structure FloorInv (s : DeliveryState) : Prop where
  floor : s.store.FloorExact
  sent : ∀ pass ∈ s.passes, pass.await.WellSent pass.clients pass.rest

theorem FloorInv.step (hinv : FloorInv s) (event : DeliveryEvent) : FloorInv (s.step event) := by
  have happended : ∀ {q what entries}, FloorInv (s.appended q (s.store.append q what entries)) := by
    intro q what entries
    cases happend : s.store.append q what entries with
    | error e => exact hinv
    | ok store => exact ⟨hinv.floor.append happend, hinv.sent⟩
  cases event with
  | outboxAppend | journalAppend | buildAppend => exact happended
  | start q clients =>
    have hsent : (drainQueue clients q s.store).WellSent clients := drainQueue_wellSent
    simp only [DeliveryState.step]
    cases hdrain : drainQueue clients q s.store with
    | done result => exact hinv
    | suspended await rest =>
      rw [hdrain] at hsent
      exact ⟨hinv.floor, forall_mem_append.mpr ⟨hinv.sent, forall_mem_singleton.mpr hsent⟩⟩
  | resume i reply =>
    simp only [DeliveryState.step]
    cases hpass : s.passes[i]? with
    | none => exact hinv
    | some pass =>
      have herase : ∀ other ∈ s.passes.eraseIdx i, other.await.WellSent other.clients other.rest :=
        fun other hother => hinv.sent other (mem_of_mem_eraseIdx hother)
      simp only
      cases hresume : resume pass.clients pass.queue s.store pass.await pass.rest reply with
      | error e => exact ⟨hinv.floor, herase⟩
      | ok result =>
        have hcases := resume_cases (hinv.sent pass (mem_of_getElem? hpass)) hresume
        have hfloor := hcases.floorExact hinv.floor
        obtain ⟨store, _ | ⟨await, rest⟩⟩ := result
        · exact ⟨hfloor, herase⟩
        · refine ⟨hfloor, fun other hother => ?_⟩
          rcases mem_or_eq_of_mem_set hother with hold | rfl
          · exact hinv.sent other hold
          · exact hcases.wellSent

/-- In every run from empty queues, however many passes overlap and whatever
they are answered, the pending floor holds the rows with tracked work and no
others, and no removal of rows traps on it. -/
theorem pending_floor_is_exact (events : List DeliveryEvent) :
    let store := (events.foldl DeliveryState.step .fresh).store
    store.FloorExact ∧ ∀ q sequences, ∃ store', store.removeAll q sequences = .ok store' := by
  have hinv : FloorInv (events.foldl DeliveryState.step .fresh) :=
    foldl_keeps (fun _ event hinv => hinv.step event)
      ⟨fresh_floorExact, by simp [DeliveryState.fresh]⟩ events
  exact ⟨hinv.floor, fun q sequences => (hinv.floor.removeAll sequences).imp fun _ h => h.1⟩

end Gleaph
