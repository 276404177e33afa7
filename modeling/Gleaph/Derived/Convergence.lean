import Gleaph.Runs
import Gleaph.LastWrite
import Gleaph.Derived.Acknowledge

/-!
# Gleaph.Derived.Convergence

The index converges to the last operations of the queue.

One queue is drained by passes that do not overlap, against an index that
applies a batch in order and may have applied any part of a batch whose call
failed.  Deliveries repeat, so the index goes back and forth; what has to come
out is that a key is present exactly when the last operation on it was an
insert, once no posting is left in the queue.

The argument is that the operations on a key leave the queue in their order:
what is left of them is always a last part of all that were appended
(`ConvergenceInv.order`).  A pass can break that order in one way.  A batch
that was cut by the message size and applied whole ends the run, the rest of
the run stays behind, and later runs of the same pass overtake it.  So the
theorem asks that a run is not cut whose keys come up again behind it
(`WholeRuns`).
-/

namespace Gleaph

open IndexPostingMutation Await List

/-! ## Keys and changes -/

/-- What a posting operation sets or clears in the index. -/
inductive PostingKey where
  | vertexProperty (physicalIndexId propertyId : Nat) (value : List UInt8) (vertexId : Nat)
  | edgeProperty (physicalIndexId propertyId : Nat) (value : List UInt8)
      (labelId ownerVertexId slotIndex : Nat)
  | label (labelId vertexId : Nat)
deriving DecidableEq

/-- The key of an operation, and whether it is an insert. -/
def IndexPostingMutation.change : IndexPostingMutation → PostingKey × Bool
  | .vertexProperty physicalIndexId remove propertyId value vertexId =>
    (.vertexProperty physicalIndexId propertyId value vertexId, !remove)
  | .edgeProperty physicalIndexId remove propertyId value labelId ownerVertexId slotIndex =>
    (.edgeProperty physicalIndexId propertyId value labelId ownerVertexId slotIndex, !remove)
  | .label remove labelId vertexId => (.label labelId vertexId, !remove)

def RepairPostingOp.change : RepairPostingOp → Option (PostingKey × Bool)
  | .vertexProperty physicalIndexId _ _ remove propertyId payloadBytes vertexId =>
    some (.vertexProperty physicalIndexId propertyId payloadBytes vertexId, !remove)
  | .edgeProperty physicalIndexId _ _ remove propertyId payloadBytes labelId ownerVertexId slotIndex =>
    some (.edgeProperty physicalIndexId propertyId payloadBytes labelId ownerVertexId slotIndex,
      !remove)
  | .label remove labelId vertexId => some (.label labelId vertexId, !remove)
  | .vectorEmbedding _ => none

def DurableOp.change : DurableOp → Option (PostingKey × Bool)
  | .ordinary op => op.change
  | .buildDml _ => none

theorem isSome_change (op : DurableOp) : op.change.isSome = op.isPosting := by
  rcases op with (_ | _ | _ | _) | _ <;> rfl

theorem change_of_toIndexMutation (h : toIndexMutation op = .ok mutation) :
    op.change = some mutation.change := by
  cases op <;> simp only [toIndexMutation] at h
  case vertexProperty | edgeProperty =>
    split at h
    · cases h
      rfl
    · cases h
  case label =>
    cases h
    rfl
  case vectorEmbedding => cases h

/-- The changes of the rows of a queue, in order. -/
def DerivedIndexStore.changes (store : DerivedIndexStore) (q : DurableQueue) :
    List (PostingKey × Bool) := (store.rows q).filterMap fun row => row.2.op.change

/-! ## One queue, one pass at a time -/

structure ConvergenceState where
  store : DerivedIndexStore
  pass : Option SuspendedPass
  /-- The membership of graph-index. -/
  index : PostingKey → Bool
  /-- All changes ever appended. -/
  history : List (PostingKey × Bool)

inductive ConvergenceEvent where
  | append (mutationId : Nat) (ops : List RepairPostingOp)
  | buildAppend (mutationId : Nat) (requests : List IndexBuildDmlRequest)
  | start (clients : DrainClients)
  /-- The reply to the pass; the target has applied the first `landed`
  operations of what was sent. -/
  | resume (reply : Reply) (landed : Nat)

/-- The postings a call carries. -/
def Await.sent : Await → List IndexPostingMutation
  | .postingBatch _ operations => operations
  | .posting _ op _ => (toIndexMutation op).toOption.toList
  | .buildDml _ _ => []
  | .vectorBatch _ _ _ => []

namespace ConvergenceState

def resumed (s : ConvergenceState) (pass : SuspendedPass) :
    Except String (DerivedIndexStore × DrainStatus) → ConvergenceState
  | .error _ => { s with pass := none }
  | .ok (store, .done _) => { s with store, pass := none }
  | .ok (store, .suspended await rest) => { s with store, pass := some { pass with await, rest } }

/-- A pass starts only when no other is under way. -/
def step (q : DurableQueue) (s : ConvergenceState) : ConvergenceEvent → ConvergenceState
  | .append mutationId ops =>
    match s.store.appendTo q mutationId ops with
    | .error _ => s
    | .ok store => { s with store, history := s.history ++ ops.filterMap RepairPostingOp.change }
  | .buildAppend mutationId requests =>
    match s.store.derivedIndexBuildOutboxAppend mutationId requests with
    | .error _ => s
    | .ok store => { s with store }
  | .start clients =>
    match s.pass, drainQueue clients q s.store with
    | none, .suspended await rest => { s with pass := some ⟨q, clients, await, rest⟩ }
    | _, _ => s
  | .resume reply landed =>
    match s.pass with
    | none => s
    | some pass =>
      { s with
        index := LastWrite.applyAll s.index ((pass.await.sent.take landed).map change) }.resumed
          pass (Gleaph.resume pass.clients q s.store pass.await pass.rest reply)

end ConvergenceState

/-! ## What is assumed and asked -/

/-- What a reply says is what the target did: an answered batch is applied in
order up to `applied`, which is all of it exactly when `next_index` is empty;
of a failed call any first part may be applied. -/
def Await.Faithful : Await → Reply → Nat → Prop
  | .buildDml _ _, .buildDml _ _, _ => True
  | .vectorBatch _ _ _, .vector _, _ => True
  | .postingBatch _ operations, .progress (.ok progress), landed =>
    landed = progress.applied ∧ progress.applied ≤ operations.length ∧
      (progress.nextIndex = none ↔ progress.applied = operations.length)
  | .postingBatch _ _, .progress (.error _), _ => True
  | .posting _ _ _, .posted (.ok _), landed => landed = 1
  | .posting _ _ _, .posted (.error _), _ => True
  | _, _, _ => False

instance (await : Await) (reply : Reply) (landed : Nat) :
    Decidable (await.Faithful reply landed) := by
  unfold Faithful
  split <;> infer_instance

def TargetFaithful (s : ConvergenceState) (event : ConvergenceEvent) : Prop :=
  match event, s.pass with
  | .resume reply landed, some pass => pass.await.Faithful reply landed
  | _, _ => True

instance (s : ConvergenceState) (event : ConvergenceEvent) : Decidable (TargetFaithful s event) := by
  unfold TargetFaithful
  split <;> infer_instance

/-- Postings in front of a vector or build row are not cut by the message size
if one of their keys comes up again behind it: what is left of the run goes
into one message. -/
def WholeRuns (clients : DrainClients) (entries : List (Nat × DurableOp)) : Prop :=
  ∀ (front : List (Nat × DurableOp)) (run : List (Nat × RepairPostingOp)) separator back,
    entries = front ++ ((run.map fun entry => (entry.1, DurableOp.ordinary entry.2)) ++
      separator :: back) →
    separator.2.isPosting = false →
    (∃ x ∈ run, ∃ y ∈ back, ∃ change change', x.2.change = some change ∧
      y.2.change = some change' ∧ change.1 = change'.1) →
    ∀ operations, propertyBatchPrefix clients run = .ok operations → operations.length = run.length

/-- Every pass finds a queue whose runs are whole. -/
def StartsWithWholeRuns (q : DurableQueue) (s : ConvergenceState) : ConvergenceEvent → Prop
  | .start clients => WholeRuns clients (s.store.peekQueue q)
  | _ => True

theorem WholeRuns.suffix (h : WholeRuns clients entries) (hsuffix : entries' <:+ entries) :
    WholeRuns clients entries' := by
  obtain ⟨front', rfl⟩ := hsuffix
  intro front run separator back heq hseparator hshared operations hbatch
  refine h (front' ++ front) run separator back ?_ hseparator hshared operations hbatch
  rw [heq, append_assoc]

/-! ## The rows on one key -/

def DurableOp.key? (op : DurableOp) : Option PostingKey := op.change.map (·.1)

theorem DurableOp.isPosting_of_key? {op : DurableOp} (h : op.key? = some k) : op.isPosting := by
  rw [← isSome_change]
  obtain ⟨change, hchange, -⟩ := Option.map_eq_some_iff.mp h
  simp [hchange]

namespace DerivedIndexStore

variable {store : DerivedIndexStore}

def rowsOn (store : DerivedIndexStore) (q : DurableQueue) (k : PostingKey) : List (Nat × DurableRow) :=
  (store.rows q).filter fun row => row.2.op.key? = some k

theorem mem_rowsOn : row ∈ store.rowsOn q k ↔ row ∈ store.rows q ∧ row.2.op.key? = some k := by
  simp [rowsOn]

theorem rowsOn_sorted (k : PostingKey) : (store.rowsOn q k).Pairwise fun x y => x.1 < y.1 :=
  (store.queues q).sorted.filter _

end DerivedIndexStore

open LastWrite

/-- The changes on a key are the changes of the entries with that key. -/
theorem on_filterMap_change {α : Type} (op : α → DurableOp) (entries : List α) (k : PostingKey) :
    on k (entries.filterMap fun entry => (op entry).change) =
      (entries.filter fun entry => (op entry).key? = some k).filterMap fun entry =>
        (op entry).change := by
  induction entries with
  | nil => rfl
  | cons entry entries ih =>
    cases hchange : (op entry).change with
    | none =>
      have hkey : (op entry).key? = none := by simp [DurableOp.key?, hchange]
      simpa [hchange, hkey] using ih
    | some change =>
      have hkey : (op entry).key? = some change.1 := by simp [DurableOp.key?, hchange]
      by_cases hk : change.1 = k
      · simpa [on, hchange, hkey, hk] using ih
      · simpa [on, hchange, hkey, hk] using ih

theorem on_changes (store : DerivedIndexStore) (q : DurableQueue) (k : PostingKey) :
    on k (store.changes q) =
      (store.rowsOn q k).filterMap fun row => row.2.op.change :=
  on_filterMap_change (fun row : Nat × DurableRow => row.2.op) (store.rows q) k

open DerivedIndexStore

/-- A key without a change has no row, and the other way round. -/
theorem on_changes_eq_nil {store : DerivedIndexStore} :
    on k (store.changes q) = [] ↔ store.rowsOn q k = [] := by
  rw [on_changes]
  constructor
  · intro h
    refine eq_nil_iff_forall_not_mem.mpr fun row hrow => ?_
    have hkey := (mem_rowsOn.mp hrow).2
    obtain ⟨change, hchange, -⟩ := Option.map_eq_some_iff.mp hkey
    have := filterMap_eq_nil_iff.mp h row hrow
    rw [hchange] at this
    cases this
  · intro h
    rw [h]
    rfl

/-! ## What an answered call does -/

variable {store : DerivedIndexStore}

theorem rowsOn_eq_filter_postingRows (store : DerivedIndexStore) (q : DurableQueue) (k : PostingKey) :
    store.rowsOn q k = (store.postingRows q).filter fun row => row.2.op.key? = some k := by
  rw [rowsOn, postingRows, filter_filter]
  refine filter_congr fun row _ => ?_
  by_cases hkey : row.2.op.key? = some k
  · simp [hkey, DurableOp.isPosting_of_key? hkey]
  · simp [hkey]

theorem Acknowledges.rowsOn (hack : Acknowledges clients q store await rest reply store' status)
    (k : PostingKey) : store'.rowsOn q k =
      (store.rowsOn q k).filter fun row => row.1 ∉ await.removed reply := by
  rw [rowsOn_eq_filter_postingRows, rowsOn_eq_filter_postingRows, hack.postings]
  exact filter_comm ..

/-- A translated batch has the changes of its rows. -/
theorem changes_of_mapM {entries : List (Nat × RepairPostingOp)}
    (h : (entries.mapM fun entry => toIndexMutation entry.2) = .ok operations) :
    operations.map (fun operation => some operation.change) =
      entries.map fun entry => entry.2.change :=
  map_eq_of_mapM h fun _ _ hmutation => (change_of_toIndexMutation hmutation).symm

theorem filterMap_change_of_not_posting {entries : List (Nat × DurableOp)}
    (h : ∀ entry ∈ entries, entry.2.isPosting = false) :
    entries.filterMap (fun entry => entry.2.change) = [] := by
  refine filterMap_eq_nil_iff.mpr fun entry hentry => ?_
  have := h entry hentry
  rw [← isSome_change] at this
  simpa using this

/-- The changes a reply acknowledges are those that have landed; a reply that
acknowledges nothing may leave it open what has. -/
theorem sent_acknowledged {await : Await} (hwell : await.WellSent clients rest)
    (hfaithful : await.Faithful reply landed)
    (hcount : ∀ group operations, await = .postingBatch group operations →
      await.acknowledged reply ≤ operations.length) :
    await.removed reply = [] ∨ (await.sent.take landed).map change =
      (await.unacked.take (await.acknowledged reply)).filterMap fun entry => entry.2.change := by
  cases await with
  | buildDml sequence request =>
    refine .inr ?_
    rw [sent, take_nil, map_nil, filterMap_change_of_not_posting]
    intro entry hentry
    obtain rfl := mem_singleton.mp (mem_of_mem_take hentry)
    rfl
  | vectorBatch group count submitted =>
    refine .inr ?_
    rw [sent, take_nil, map_nil, filterMap_change_of_not_posting]
    intro entry hentry
    obtain ⟨vector, -, rfl⟩ := mem_map.mp (mem_of_mem_take hentry)
    rfl
  | postingBatch group operations =>
    rcases reply with _ | _ | (_ | progress) | _
    case progress.ok =>
      obtain ⟨rfl, hle, -⟩ := hfaithful
      refine .inr ?_
      have hchanges := congrArg (fun changes => (changes.take progress.applied).filterMap id)
        (changes_of_mapM (propertyBatchPrefix_eq_ok hwell.2.2).2.2)
      simpa [sent, unacked, acknowledged, ← map_take, filterMap_map, take_take, Nat.min_eq_left hle,
        Function.comp_def, DurableOp.change] using hchanges
    all_goals exact .inl rfl
  | posting sequence op group =>
    rcases reply with _ | _ | _ | (_ | _)
    case posted.ok =>
      obtain rfl := hfaithful
      obtain ⟨mutation, hmutation⟩ := hwell.1
      refine .inr ?_
      simp [sent, hmutation, Except.toOption, acknowledged, unacked,
        DurableOp.change, change_of_toIndexMutation hmutation]
    all_goals exact .inl rfl

/-! ## The invariant -/

/-- What holds of the pass under way. -/
structure PassInv (q : DurableQueue) (store : DerivedIndexStore) (pass : SuspendedPass) : Prop
    extends pass.Held q store where
  whole : WholeRuns pass.clients pass.unacked
  /-- It has left no row behind with a key that is still to come. -/
  noneBehind : ∀ k, ∀ row ∈ store.rowsOn q k, ∀ entry ∈ pass.unacked, entry.2.key? = some k →
    row.1 < entry.1 → ∃ held ∈ pass.unacked, held.1 = row.1

structure ConvergenceInv (q : DurableQueue) (s : ConvergenceState) : Prop where
  /-- No posting is set aside. -/
  pending : ∀ row ∈ s.store.rows q, row.2.op.isPosting → row.2.isPending
  /-- The operations on a key leave the queue in their order. -/
  order : ∀ k, LastWrite.on k (s.store.changes q) <:+ LastWrite.on k s.history
  /-- A key without an operation in the queue is as its last one left it. -/
  index : ∀ k, LastWrite.on k (s.store.changes q) = [] →
    ∀ present, LastWrite.lastOn k s.history = some present → s.index k = present
  pass : ∀ pass, s.pass = some pass → PassInv q s.store pass

theorem PassInv.of_rows_eq {pass : SuspendedPass} (hpass : PassInv q store pass)
    (h : store'.rows q = store.rows q) : PassInv q store' pass where
  toHeld := hpass.toHeld.of_rows_eq h
  whole := hpass.whole
  noneBehind := by
    intro k row hrow
    rw [rowsOn, h] at hrow
    exact hpass.noneBehind k row hrow

/-- New rows are behind everything the pass holds. -/
theorem PassInv.append {pass : SuspendedPass} (hpass : PassInv q store pass)
    (hrows : store'.rows q = store.rows q ++ new)
    (hbehind : ∀ old ∈ store.rows q, ∀ row ∈ new, old.1 < row.1) : PassInv q store' pass where
  toHeld := hpass.toHeld.of_subset (by rw [hrows]; exact subset_append_left _ _)
  whole := hpass.whole
  noneBehind := by
    intro k row hrow entry hentry hkey hlt
    obtain ⟨hrow, hk⟩ := mem_rowsOn.mp hrow
    rw [hrows] at hrow
    rcases mem_append.mp hrow with hrow | hrow
    · exact hpass.noneBehind k row (mem_rowsOn.mpr ⟨hrow, hk⟩) entry hentry hkey hlt
    obtain ⟨old, hold, -⟩ := hpass.stored entry hentry
    have : entry.1 < row.1 := hbehind _ hold row hrow
    omega

namespace PassInv

variable {pass : SuspendedPass} (hpass : PassInv q store pass)

include hpass

/-- A removed row on a key takes all earlier ones with it. -/
theorem removed_downward (hx : x ∈ store.rowsOn q k) (hy : y ∈ store.rowsOn q k) (hlt : x.1 < y.1)
    (hremoved : y.1 ∈ pass.await.removed reply) : x.1 ∈ pass.await.removed reply := by
  obtain ⟨entry, hentry, heq⟩ := mem_map.mp hremoved
  have hheld : entry ∈ pass.unacked := by
    rw [SuspendedPass.unacked_split pass (pass.await.acknowledged reply)]
    exact mem_append_left _ hentry
  obtain ⟨hrow, hkey⟩ := mem_rowsOn.mp hy
  have hop : y.2.op = entry.2 := hpass.op_eq hheld (by rw [heq]; exact hrow)
  obtain ⟨held, hmem, hnumber⟩ :=
    hpass.noneBehind k x hx entry hheld (hop ▸ hkey) (by simp only [heq]; exact hlt)
  have hsorted := hpass.sorted
  rw [SuspendedPass.unacked_split pass (pass.await.acknowledged reply)] at hmem hsorted
  rcases mem_append.mp hmem with hmem | hmem
  · exact mem_map.mpr ⟨held, hmem, hnumber⟩
  · have := (pairwise_append.mp hsorted).2.2 entry hentry held hmem
    omega

/-- When the last operations on a key are removed, they are all in the
acknowledged part. -/
theorem rowsOn_entries
    (hack : Acknowledges pass.clients q store pass.await pass.rest reply store' status)
    (hnil : store'.rowsOn q k = []) :
    (store.rowsOn q k).map (fun row => (row.1, row.2.op)) =
      (pass.await.unacked.take (pass.await.acknowledged reply)).filter fun entry =>
        entry.2.key? = some k := by
  have hsorted := hpass.sorted
  have hsub : ∀ entry ∈ pass.await.unacked.take (pass.await.acknowledged reply),
      entry ∈ pass.unacked := by
    intro entry hentry
    rw [SuspendedPass.unacked_split pass (pass.await.acknowledged reply)]
    exact mem_append_left _ hentry
  rw [SuspendedPass.unacked_split pass (pass.await.acknowledged reply)] at hsorted
  refine SeqMap.eq_of_mem_iff (pairwise_map.mpr (rowsOn_sorted k))
    ((pairwise_append.mp hsorted).1.filter _) fun entry => ?_
  constructor
  · intro hentry
    obtain ⟨row, hrow, rfl⟩ := mem_map.mp hentry
    have hremoved : row.1 ∈ pass.await.removed reply := by
      rw [hack.rowsOn k, filter_eq_nil_iff] at hnil
      simpa using hnil row hrow
    obtain ⟨entry, hentry, heq⟩ := mem_map.mp hremoved
    obtain ⟨hmem, hkey⟩ := mem_rowsOn.mp hrow
    have hop : row.2.op = entry.2 := hpass.op_eq (hsub entry hentry) (by rw [heq]; exact hmem)
    rw [hop, ← heq]
    exact mem_filter.mpr ⟨hentry, by simpa [hop] using hkey⟩
  · intro hentry
    obtain ⟨hentry, hkey⟩ := mem_filter.mp hentry
    obtain ⟨row, hrow, hop⟩ := hpass.stored entry (hsub entry hentry)
    have hkey : row.op.key? = some k := by simpa [hop] using hkey
    exact mem_map.mpr ⟨(entry.1, row), mem_rowsOn.mpr ⟨hrow, hkey⟩,
      Prod.ext rfl hop⟩

/-- A key that was sent has a row in the queue. -/
theorem rowsOn_ne_nil_of_sent {operation : IndexPostingMutation}
    (hsent : operation ∈ pass.await.sent) : store.rowsOn q operation.change.1 ≠ [] := by
  have hentry : ∃ entry ∈ pass.await.unacked, entry.2.change = some operation.change := by
    have hwell := hpass.sent
    cases hawait : pass.await with
    | buildDml sequence request => simp [hawait, sent] at hsent
    | vectorBatch group count submitted => simp [hawait, sent] at hsent
    | postingBatch group operations =>
      rw [hawait] at hwell hsent
      have hchanges := changes_of_mapM (propertyBatchPrefix_eq_ok hwell.2.2).2.2
      have hmem : some operation.change ∈
          operations.map fun operation => some operation.change := mem_map_of_mem hsent
      rw [hchanges] at hmem
      obtain ⟨entry, hentry, hchange⟩ := mem_map.mp hmem
      exact ⟨_, mem_map_of_mem (mem_of_mem_take hentry), hchange⟩
    | posting sequence op group =>
      rw [hawait] at hwell hsent
      obtain ⟨mutation, hmutation⟩ := hwell.1
      obtain rfl : operation = mutation := by
        simpa [sent, hmutation, Except.toOption] using hsent
      exact ⟨_, mem_cons_self, change_of_toIndexMutation hmutation⟩
  obtain ⟨entry, hentry, hchange⟩ := hentry
  obtain ⟨row, hrow, hop⟩ := hpass.stored entry (mem_append_left _ hentry)
  refine ne_nil_of_mem (mem_rowsOn.mpr ⟨hrow, ?_⟩)
  simp [hop, DurableOp.key?, hchange]

/-- A key without a row was not sent, so nothing has landed on it. -/
theorem index_of_rowsOn_eq_nil (hnil : store.rowsOn q k = []) (index : PostingKey → Bool) (landed : Nat) :
    applyAll index ((pass.await.sent.take landed).map change) k = index k := by
  refine applyAll_of_on_eq_nil (on_eq_nil.mpr ?_)
  intro change hchange heq
  obtain ⟨operation, hoperation, rfl⟩ := mem_map.mp hchange
  exact hpass.rowsOn_ne_nil_of_sent (mem_of_mem_take hoperation) (heq ▸ hnil)

/-- A run that is left behind names no key of the rows the pass goes on with. -/
theorem not_left_behind (hfaithful : pass.await.Faithful reply landed)
    (hfinished : pass.await.Finished reply) {held entry : Nat × DurableOp}
    (hheld : held ∈ pass.await.unacked.drop (pass.await.acknowledged reply))
    (hkey : held.2.key? = some k) (hentry : entry ∈ pass.rest) (hkey' : entry.2.key? = some k) : False := by
  obtain ⟨group, operations, applied, hawait, rfl⟩ := hfinished
  have hwell := hpass.sent
  have hwhole := hpass.whole
  rw [SuspendedPass.unacked, hawait] at hwhole
  rw [hawait] at hfaithful hwell hheld
  obtain ⟨-, -, hend⟩ := hfaithful
  obtain ⟨-, hfirst, hbatch⟩ := hwell
  -- the rows behind the run begin with a row of another kind
  cases hrest : pass.rest with
  | nil =>
    rw [hrest] at hentry
    cases hentry
  | cons separator back =>
    rw [hrest] at hentry hfirst hwhole
    have hseparator : separator.2.isPosting = false := hfirst separator rfl
    have hentry : entry ∈ back := by
      rcases mem_cons.mp hentry with rfl | hentry
      · simp [DurableOp.isPosting_of_key? hkey'] at hseparator
      · exact hentry
    obtain ⟨x, hx, rfl⟩ := mem_map.mp (mem_of_mem_drop hheld)
    obtain ⟨change, hchange, hk⟩ := Option.map_eq_some_iff.mp hkey
    obtain ⟨change', hchange', hk'⟩ := Option.map_eq_some_iff.mp hkey'
    have hlength := hwhole [] group separator back rfl hseparator
      ⟨x, hx, entry, hentry, change, change', hchange, hchange', hk.trans hk'.symm⟩ operations hbatch
    -- so the batch was the whole run, and nothing of it is left
    have happlied : applied = operations.length := hend.mp rfl
    have hnil : (postingBatch group operations).unacked.drop applied = [] := by
      rw [happlied, hlength]
      simp [unacked]
    have hheld : (x.1, DurableOp.ordinary x.2) ∈
        (postingBatch group operations).unacked.drop applied := hheld
    rw [hnil] at hheld
    cases hheld

/-- The pass goes on with an invariant of its own. -/
theorem acknowledged {await : Await} (hfaithful : pass.await.Faithful reply landed)
    (hack : Acknowledges pass.clients q store pass.await pass.rest reply store' (.suspended await
      rest)) : PassInv q store' { pass with await, rest } := by
  have hsplit := SuspendedPass.unacked_split pass (pass.await.acknowledged reply)
  have hsuffix : await.unacked ++ rest <:+ pass.unacked := hack.unacked_suffix
  refine ⟨hpass.toHeld.acknowledged hack, hpass.whole.suffix hsuffix, ?_⟩
  · intro k row hrow entry hentry hkey hlt
    rw [hack.rowsOn k] at hrow
    obtain ⟨hrow, hkept⟩ := mem_filter.mp hrow
    obtain ⟨held, hheld, hnumber⟩ :=
      hpass.noneBehind k row hrow entry (hsuffix.subset hentry) hkey hlt
    obtain ⟨hmem, hrowKey⟩ := mem_rowsOn.mp hrow
    have hop : row.2.op = held.2 := hpass.op_eq hheld (by rw [hnumber]; exact hmem)
    have hheldKey : held.2.key? = some k := hop ▸ hrowKey
    have hposting := DurableOp.isPosting_of_key? hheldKey
    refine ⟨held, ?_, hnumber⟩
    rw [hsplit] at hheld
    rcases mem_append.mp hheld with htaken | hlater
    · have : row.1 ∈ pass.await.removed reply := mem_map.mpr ⟨held, htaken, hnumber⟩
      simp [this] at hkept
    rcases hack.follows with hfollows | ⟨hfinished, hfollows⟩
    · exact hfollows.keeps await rest rfl held hlater hposting
    rcases mem_append.mp hlater with hleft | hlater
    · exact (hpass.not_left_behind hfaithful hfinished hleft hheldKey
        (hfollows.suffix.subset hentry) hkey).elim
    · exact hfollows.keeps await rest rfl held hlater hposting

end PassInv

namespace ConvergenceInv

variable (hinv : ConvergenceInv q s)

include hinv

/-- Rows are appended, and their changes to the history with them. -/
theorem append {entries : List DurableRow} (hpending : ∀ entry ∈ entries, entry.isPending)
    (happend : s.store.append q what entries = .ok store') :
    ConvergenceInv q { s with
      store := store'
      history := s.history ++ entries.filterMap fun entry => entry.op.change } := by
  obtain ⟨new, hrows, hnew, hbehind, -, -, -, -⟩ := append_spec happend
  have hchanges : store'.changes q =
      s.store.changes q ++ entries.filterMap fun entry => entry.op.change := by
    rw [changes, hrows, filterMap_append, ← hnew, filterMap_map]
    rfl
  refine ⟨?_, fun k => ?_, fun k hnil present hlast => ?_, fun pass hpass => ?_⟩
  · intro row hrow hposting
    rw [hrows] at hrow
    rcases mem_append.mp hrow with hrow | hrow
    · exact hinv.pending row hrow hposting
    · exact hpending row.2 (hnew ▸ mem_map_of_mem hrow)
  · simp only [hchanges, on_append]
    exact suffix_append_self_iff.mpr (hinv.order k)
  · simp only [hchanges, on_append, append_eq_nil_iff] at hnil
    refine hinv.index k hnil.1 present ?_
    simpa [lastOn, hnil.2] using hlast
  · exact (hinv.pass pass hpass).append hrows hbehind

/-- A pass that starts holds every posting of the queue. -/
theorem start (clients : DrainClients) (hwhole : WholeRuns clients (s.store.peekQueue q)) :
    ConvergenceInv q (s.step q (.start clients)) := by
  simp only [ConvergenceState.step]
  split
  next await rest hpass hdrain =>
    have hfollows : (drainQueue clients q s.store).Follows (s.store.peekQueue q) := drainQueue_follows
    rw [hdrain] at hfollows
    refine ⟨hinv.pending, hinv.order, hinv.index, ?_⟩
    rintro pass ⟨⟩
    refine ⟨.of_drainQueue hdrain, hwhole.suffix hfollows.suffix, ?_⟩
    · intro k row hrow entry hentry hkey hlt
      obtain ⟨hrow, hk⟩ := mem_rowsOn.mp hrow
      have hposting := DurableOp.isPosting_of_key? hk
      refine ⟨(row.1, row.2.op), hfollows.keeps await rest rfl _ ?_ hposting, rfl⟩
      exact mem_map.mpr ⟨row, mem_filter.mpr ⟨hrow, hinv.pending row hrow hposting⟩, rfl⟩
  next => exact hinv

/-- When the last operation on a key leaves the queue, the key is as that
operation left it. -/
theorem index_of_acknowledged {pass : SuspendedPass} (hpass : PassInv q s.store pass)
    {reply : Reply} (hfaithful : pass.await.Faithful reply landed)
    (hack : Acknowledges pass.clients q s.store pass.await pass.rest reply store' status)
    (hnil : store'.rowsOn q k = []) (hlast : lastOn k s.history = some present) :
    applyAll s.index ((pass.await.sent.take landed).map change) k =
      present := by
  by_cases hbefore : s.store.rowsOn q k = []
  · rw [hpass.index_of_rowsOn_eq_nil hbefore]
    exact hinv.index k (on_changes_eq_nil.mpr hbefore) present hlast
  have hremoved : pass.await.removed reply ≠ [] := by
    intro hempty
    rw [hack.rowsOn k, hempty] at hnil
    exact hbefore (by simpa using hnil)
  -- what has landed on the key is what was in the queue on it
  have hlanded : on k ((pass.await.sent.take landed).map change) =
      on k (s.store.changes q) := by
    rw [(sent_acknowledged hpass.sent hfaithful hack.count).resolve_left hremoved,
      on_filterMap_change (fun entry : Nat × DurableOp => entry.2), ← hpass.rowsOn_entries hack hnil,
      filterMap_map, on_changes]
    rfl
  have hne : on k (s.store.changes q) ≠ [] := fun h => hbefore (on_changes_eq_nil.mp h)
  have hsame : lastOn k ((pass.await.sent.take landed).map change) =
      some present := by
    rw [← hlast, lastOn_of_suffix (hinv.order k) hne, lastOn, hlanded]
    rfl
  rw [applyAll_apply, hsame]
  rfl

/-- A reply keeps the invariant. -/
theorem resume {reply : Reply} (hfaithful : TargetFaithful s (.resume reply landed)) :
    ConvergenceInv q (s.step q (.resume reply landed)) := by
  simp only [ConvergenceState.step]
  cases hsome : s.pass with
  | none => exact hinv
  | some pass =>
    have hpass := hinv.pass pass hsome
    have hfaithful : pass.await.Faithful reply landed := by
      simpa [TargetFaithful, hsome] using hfaithful
    -- the pass is over and the queue unchanged
    have hended : ConvergenceInv q { s with
        index := applyAll s.index
          ((pass.await.sent.take landed).map change)
        pass := none } := by
      refine ⟨hinv.pending, hinv.order, fun k hnil present hlast => ?_, fun _ h => by cases h⟩
      have hrows := on_changes_eq_nil.mp hnil
      exact (hpass.index_of_rowsOn_eq_nil hrows _ _).trans (hinv.index k hnil present hlast)
    simp only
    cases hresume : Gleaph.resume pass.clients q s.store pass.await pass.rest reply with
    | error e => exact hended
    | ok result =>
      obtain ⟨store', status⟩ := result
      rcases (resume_cases hpass.sent hresume).ends_or_acknowledges with ⟨rfl, result, rfl⟩ | hack
      · exact hended
      have hpending : ∀ row ∈ store'.rows q, row.2.op.isPosting → row.2.isPending :=
        fun row hrow hposting => hinv.pending row (hack.inherited row hrow hposting) hposting
      have horder : ∀ k, on k (store'.changes q) <:+ on k s.history := by
        intro k
        refine List.IsSuffix.trans ?_ (hinv.order k)
        -- what is left of the operations on a key is a last part of them
        have hsplit := SeqMap.filter_append_of_downward (rowsOn_sorted k)
          (p := fun row : Nat × DurableRow => decide (row.1 ∈ pass.await.removed reply))
          (fun x hx y hy hlt hy' => by
            simpa using hpass.removed_downward hx hy hlt (by simpa using hy'))
        rw [on_changes, on_changes, hack.rowsOn k]
        simp only [decide_not]
        exact List.IsSuffix.filterMap _ ⟨_, hsplit⟩
      have hindex : ∀ k, on k (store'.changes q) = [] → ∀ present,
          lastOn k s.history = some present →
            applyAll s.index
              ((pass.await.sent.take landed).map change) k = present :=
        fun k hnil present hlast =>
          hinv.index_of_acknowledged hpass hfaithful hack (on_changes_eq_nil.mp hnil) hlast
      cases status with
      | done result => exact ⟨hpending, horder, hindex, fun _ h => by cases h⟩
      | suspended await rest =>
        refine ⟨hpending, horder, hindex, ?_⟩
        rintro _ ⟨⟩
        exact hpass.acknowledged hfaithful hack

theorem step (hfaithful : TargetFaithful s event) (hwhole : StartsWithWholeRuns q s event) :
    ConvergenceInv q (s.step q event) := by
  cases event with
  | append mutationId ops =>
    simp only [ConvergenceState.step]
    cases happend : s.store.appendTo q mutationId ops with
    | error e => exact hinv
    | ok store' =>
      cases q with
      | repairJournal | derivedIndexOutbox =>
        have := hinv.append (by simp [DurableRow.isPending]) happend
        rw [filterMap_map] at this
        exact this
  | buildAppend mutationId requests =>
    simp only [ConvergenceState.step]
    cases happend : s.store.derivedIndexBuildOutboxAppend mutationId requests with
    | error e => exact hinv
    | ok store' =>
      cases q with
      | repairJournal =>
        obtain ⟨new, -, -, -, -, hother, -, -⟩ := append_spec happend
        have hrows := hother .repairJournal (by simp)
        refine ⟨?_, ?_, ?_, fun pass hpass => (hinv.pass pass hpass).of_rows_eq hrows⟩
        · rw [hrows]
          exact hinv.pending
        · simp only [DerivedIndexStore.changes, hrows]
          exact hinv.order
        · simp only [DerivedIndexStore.changes, hrows]
          exact hinv.index
      | derivedIndexOutbox =>
        have := hinv.append (by simp [DurableRow.isPending]) happend
        simpa [filterMap_map, Function.comp_def, DurableRow.op, DurableOp.change] using this
  | start clients => exact hinv.start clients hwhole
  | resume reply landed => exact hinv.resume hfaithful

end ConvergenceInv

/-! ## The result -/

/-- Once no posting is left in the queue, every key that was ever named is
present exactly when the last operation on it was an insert. -/
def Converged (q : DurableQueue) (s : ConvergenceState) : Prop :=
  s.store.postingRows q = [] → ∀ k present, LastWrite.lastOn k s.history = some present →
    s.index k = present

theorem ConvergenceInv.converged {s : ConvergenceState} (hinv : ConvergenceInv q s) :
    Converged q s := by
  intro hempty k present hlast
  refine hinv.index k (on_changes_eq_nil.mpr ?_) present hlast
  rw [rowsOn_eq_filter_postingRows, hempty]
  rfl

/-- In every run in which each pass finds a queue whose runs are whole, every
state is converged. -/
theorem index_converges {s : ConvergenceState} (hpass : s.pass = none) (hhistory : s.history = [])
    (hempty : s.store.postingRows q = []) {events : List ConvergenceEvent}
    (hrun : AllSteps (ConvergenceState.step q)
      (fun s event => TargetFaithful s event ∧ StartsWithWholeRuns q s event) s events) :
    Converged q (events.foldl (ConvergenceState.step q) s) := by
  have hnone : ∀ k, LastWrite.on k (s.store.changes q) = [] := by
    intro k
    rw [on_changes_eq_nil, rowsOn_eq_filter_postingRows, hempty]
    rfl
  have hinit : ConvergenceInv q s := by
    refine ⟨fun row hrow hposting => ?_, fun k => ?_, fun k _ present hlast => ?_, ?_⟩
    · have : row ∈ s.store.postingRows q := mem_filter.mpr ⟨hrow, hposting⟩
      rw [hempty] at this
      cases this
    · rw [hnone k]
      exact nil_suffix
    · rw [hhistory] at hlast
      cases hlast
    · simp [hpass]
  have hinv : ConvergenceInv q (events.foldl (ConvergenceState.step q) s) :=
    foldl_invariant (fun s event hinv hok => hinv.step hok.1 hok.2) hinit hrun
  exact hinv.converged

/-! ## A run that overtakes another -/

/-- A shard that has queued nothing, and an index without postings. -/
def ConvergenceState.fresh : ConvergenceState :=
  ⟨⟨true, fun _ => .empty, ∅⟩, none, fun _ => false, []⟩

/-- An index that takes batches, and no vector canister.  A posting takes a
mebibyte, so that two do not fit a message; with the 4096 bytes that a value may
have in the index it takes some four hundred. -/
def largePostings : DrainClients where
  supportsPostingBatch := true
  vector := false
  encodedPostings operations := .ok (1048576 * operations.length)
  encodedVectors _ := .ok 0

/-- The posting of a property of a vertex. -/
def valued (remove : Bool) (vertexId : Nat) : RepairPostingOp :=
  .vertexProperty 3 0 .active remove 7 [1] vertexId

/-- Two inserts, a vector operation, and the removal of the second posting.
One insert fills a message; it is applied, the other stays behind, and the
pass goes on with the removal.  The next pass delivers the insert. -/
def overtakenInsert : List ConvergenceEvent :=
  [.append 1 [valued false 1, valued false 2, .vectorEmbedding ⟨1, 1, 2, 1, [], true⟩,
      valued true 2],
    .start largePostings, .resume (.progress (.ok ⟨1, none⟩)) 1,
    .resume (.progress (.ok ⟨1, none⟩)) 1, .start largePostings,
    .resume (.progress (.ok ⟨1, none⟩)) 1]

/-- The removed posting is in the index, and nothing is left to be delivered. -/
theorem overtakenInsert_not_converged :
    AllSteps (ConvergenceState.step .repairJournal) TargetFaithful .fresh overtakenInsert ∧
      ¬Converged .repairJournal
        (overtakenInsert.foldl (ConvergenceState.step .repairJournal) .fresh) := by
  refine ⟨by decide +kernel, fun h => ?_⟩
  have hpresent : (overtakenInsert.foldl (ConvergenceState.step .repairJournal) .fresh).index
      (.vertexProperty 3 7 [1] 2) = true := by decide +kernel
  have := h (by decide +kernel) (.vertexProperty 3 7 [1] 2) false (by decide +kernel)
  simp [hpresent] at this

/-- One insert in front of the vector operation is a whole run, whatever the sizes. -/
theorem wholeRuns_insert_remove (clients : DrainClients) (op : VectorEmbeddingSyncOp) :
    WholeRuns clients [(0, .ordinary (valued false 1)), (1, .ordinary (.vectorEmbedding op)),
      (2, .ordinary (valued true 1))] := by
  rintro front run separator back heq hseparator ⟨x, hx, -⟩ operations hbatch
  -- the vector operation is the only row that can stand behind a run
  have hget := congrArg (·[front.length + run.length]?) heq
  have hlength := congrArg length heq
  simp at hget hlength
  have hpos := length_pos_of_mem hx
  have hone : front.length + run.length = 1 := by
    by_contra hne
    have htwo : front.length + run.length = 2 := by omega
    simp [htwo] at hget
    simp [← hget, DurableOp.isPosting, valued] at hseparator
  obtain ⟨hsome, hle, -⟩ := propertyBatchPrefix_eq_ok hbatch
  omega

/-- The insert is delivered before the removal behind the vector operation. -/
theorem index_converges_one_run :
    let events : List ConvergenceEvent :=
      [.append 1 [valued false 1, .vectorEmbedding ⟨1, 1, 1, 1, [], true⟩, valued true 1],
        .start largePostings, .resume (.progress (.ok ⟨1, none⟩)) 1,
        .resume (.progress (.ok ⟨1, none⟩)) 1]
    Converged .repairJournal (events.foldl (ConvergenceState.step .repairJournal) .fresh) := by
  intro events
  refine index_converges rfl rfl (by decide +kernel) ⟨⟨trivial, trivial⟩, ⟨trivial, ?_⟩,
    ⟨by decide +kernel, trivial⟩, ⟨by decide +kernel, trivial⟩, trivial⟩
  exact wholeRuns_insert_remove largePostings ⟨1, 1, 1, 1, [], true⟩

end Gleaph
