import Gleaph.Derived.Drain

/-!
# Gleaph.Derived.Flush

Postings between the mutation that makes them and a durable queue.

Index work is collected in volatile queues, one for each kind of posting,
shared by everything that runs on the shard.  `flushAllPending` takes all of
them at once and sends them in chunks that fit a message; what is not applied
goes to the repair journal.  A flush is suspended at each call, and what it
has taken is then in no queue.

The index client is one that takes batches.  The flush of a client that takes
postings one by one, kind by kind, and the flush without a client are not
modelled.

`QueuedPosting` carries, beside the operation, the mutation that queued it and
a number of its own; the code knows neither.
-/

namespace Gleaph

/-- A posting on its way: `owner` is the mutation that queued it, zero for
maintenance. -/
structure QueuedPosting where
  op : RepairPostingOp
  posting : (DurableOp.ordinary op).isPosting = true
  owner : Nat
  number : Nat
deriving DecidableEq

/-- Who queued a posting, and its number. -/
def QueuedPosting.tag (x : QueuedPosting) : Nat × Nat := (x.owner, x.number)

/-- The volatile queues of the three kinds of postings. -/
structure PendingQueues where
  vertex : List QueuedPosting
  edge : List QueuedPosting
  label : List QueuedPosting
deriving DecidableEq

namespace PendingQueues

def empty : PendingQueues := ⟨[], [], []⟩

def push (pending : PendingQueues) (x : QueuedPosting) : PendingQueues :=
  match x.op with
  | .vertexProperty .. => { pending with vertex := pending.vertex ++ [x] }
  | .edgeProperty .. => { pending with edge := pending.edge ++ [x] }
  | .label .. => { pending with label := pending.label ++ [x] }
  | .vectorEmbedding _ => pending

/-- All that is taken, in the order of dispatch. -/
def takePendingAsRepair (pending : PendingQueues) : List QueuedPosting :=
  pending.vertex ++ pending.edge ++ pending.label

@[simp] theorem takePendingAsRepair_empty : empty.takePendingAsRepair = [] := rfl

/-- Pushing a posting adds it and loses none. -/
theorem mem_push {pending : PendingQueues} :
    y ∈ (pending.push x).takePendingAsRepair ↔ y ∈ pending.takePendingAsRepair ∨ y = x := by
  obtain ⟨op, posting, owner, number⟩ := x
  cases op with
  | vectorEmbedding op => cases posting
  | _ =>
    simp only [push, takePendingAsRepair, List.mem_append, List.mem_singleton]
    tauto

/-- So does pushing all of them in turn. -/
theorem mem_foldl_push {xs : List QueuedPosting} :
    y ∈ (xs.foldl push pending).takePendingAsRepair ↔ y ∈ pending.takePendingAsRepair ∨ y ∈ xs := by
  induction xs generalizing pending with
  | nil => simp
  | cons x xs ih =>
    rw [List.foldl_cons, ih, mem_push, List.mem_cons]
    tauto

end PendingQueues

/-! ## A flush -/

/-- A suspended flush: what it has left, each posting beside the mutation it is
sent as, and how many of them were sent. -/
structure Flush where
  mutationId : Nat
  clients : DrainClients
  ops : List (IndexPostingMutation × QueuedPosting)
  chunk : Nat

/-- The postings a flush has left. -/
def Flush.postings (flush : Flush) : List QueuedPosting := flush.ops.map (·.2)

/-- A flush ends with what it leaves to the repair journal, or waits. -/
inductive FlushResult where
  | done (journaled : List QueuedPosting)
  | suspended (flush : Flush)

/-- The length of a chunk that fits a message; one posting goes in any case. -/
def postingBatchChunkEnd (clients : DrainClients) (operations : List IndexPostingMutation) : Nat :=
  match adaptiveFittingPrefix operations.length none .interCanister
      (fun count => clients.encodedPostings (operations.take count)) with
  | .ok (some fitted) => fitted.entryCount
  | _ => min 1 operations.length

section

variable (clients : DrainClients) (mutationId : Nat)

/-- Send the next chunk, if there is anything left. -/
def sendChunk (ops : List (IndexPostingMutation × QueuedPosting)) : FlushResult :=
  if ops.isEmpty then .done []
  else .suspended ⟨mutationId, clients, ops, postingBatchChunkEnd clients (ops.map (·.1))⟩

/-- The posting beside the mutation it is sent as. -/
def withMutation (x : QueuedPosting) :
    Except PlanQueryError (IndexPostingMutation × QueuedPosting) := do
  let mutation ← toIndexMutation x.op
  .ok (mutation, x)

/-- Flush what was taken from the volatile queues, with a client that takes
batches.  A posting of an index that is not active sends all of them to the
journal. -/
def flushAllPending (taken : List QueuedPosting) : FlushResult :=
  match taken.mapM withMutation with
  | .error _ => .done taken
  | .ok ops => sendChunk clients mutationId ops

/-- What the reply reports as applied. -/
def Flush.reported (flush : Flush) : Except String IndexPostingBatchProgress → List QueuedPosting
  | .error _ => []
  | .ok progress =>
    if progress.applied = 0 ∨ flush.chunk < progress.applied then []
    else flush.postings.take progress.applied

def Flush.resume (flush : Flush) : Except String IndexPostingBatchProgress → FlushResult
  | .error _ => .done flush.postings
  | .ok progress =>
    if progress.applied = 0 ∨ flush.chunk < progress.applied then .done flush.postings
    else
      let left := flush.ops.drop progress.applied
      if progress.nextIndex.isNone then
        if left.isEmpty then .done []
        else if progress.applied = flush.chunk then sendChunk flush.clients flush.mutationId left
        else .done (left.map (·.2))
      else sendChunk flush.clients flush.mutationId left

/-! ## Nothing is lost on the way -/

/-- What is left to the journal, or still to be sent. -/
def FlushResult.left : FlushResult → List QueuedPosting
  | .done journaled => journaled
  | .suspended flush => flush.postings

/-- A chunk that is sent is left until its reply, and an empty one leaves
nothing. -/
theorem sendChunk_left (ops : List (IndexPostingMutation × QueuedPosting)) :
    (sendChunk clients mutationId ops).left = ops.map (·.2) := by
  unfold sendChunk
  split
  next hempty =>
    rw [List.isEmpty_iff.mp hempty]
    rfl
  next => rfl

/-- Before the first reply everything taken is left, in its order. -/
theorem flushAllPending_left (taken : List QueuedPosting) :
    (flushAllPending clients mutationId taken).left = taken := by
  unfold flushAllPending
  cases hops : taken.mapM withMutation with
  | error e => rfl
  | ok ops =>
    refine (sendChunk_left ..).trans ?_
    rw [map_eq_of_mapM (g := id) hops, List.map_id]
    intro x pair hpair
    obtain ⟨mutation, -, hpair⟩ := bind_inv hpair
    rw [← Except.ok.inj hpair]
    rfl

end

/-- A reply divides the postings into those it reports as applied and those
that are left. -/
theorem Flush.reported_append_left (flush : Flush) (reply : Except String IndexPostingBatchProgress) :
    flush.reported reply ++ (flush.resume reply).left = flush.postings := by
  cases reply with
  | error e => rfl
  | ok progress =>
    have hsplit : flush.postings.take progress.applied ++
        (flush.ops.drop progress.applied).map (·.2) = flush.postings := by
      rw [List.map_drop]
      exact List.take_append_drop ..
    simp only [Flush.reported, Flush.resume]
    split
    · rfl
    split
    · split
      next hempty => rwa [List.isEmpty_iff.mp hempty] at hsplit
      next =>
        split
        · rwa [sendChunk_left]
        · exact hsplit
    · rwa [sendChunk_left]

end Gleaph
