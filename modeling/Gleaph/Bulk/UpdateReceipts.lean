import Gleaph.Runs
import Gleaph.Bulk.UpdateRuns

/-!
# Gleaph.Bulk.UpdateReceipts

The receipt of an update chunk tells what was written.

Over every run, whatever is lost, delivered late or answered in error, the
router fits the shards and every waiting task knows only what is true
(`fits_step`).  A chunk that is completed is therefore one whose first rows,
as many as its receipt counts, were written once each, and whose other rows
were not; and since only a pending chunk has plans that can write, this stays
so (`Follows.writes`).
-/

namespace Gleaph.Bulk

namespace System

/-- The router fits the shards, and the tasks know what is true. -/
structure Fits (s : System) : Prop where
  inv : s.router.Inv s.graph
  tasks : ∀ task ∈ s.tasks, task.Sound s.graph s.router

/-- A job is started only when the records of the rows of an earlier one under
the key are gone.  A row's record is found by its chunk and ordinal and does not
name its job: a job that finds one of an earlier job takes its outcome for the
outcome of its own row and writes nothing. -/
def CleanStart (s : System) : Event → Prop
  | .start _ => s.router.store.record = none → ∀ key, s.router.rows key = none
  | _ => True

/-- What a step leads to. -/
structure Follows (s s' : System) : Prop where
  fits : s'.Fits
  later : s.router.Later s'.router
  writes : ∀ {owner}, ¬ s.router.store.Pending owner → s'.graph.writes owner = s.graph.writes owner

variable {env : SystemEnv}

theorem fits_fresh : Fits .fresh :=
  ⟨Router.inv_fresh, fun _ htask => absurd htask List.not_mem_nil⟩

theorem Fits.follows (h : s.Fits) : Follows s s := ⟨h, .refl _, fun _ => rfl⟩

/-- The router moves on, and the shards stay. -/
theorem Fits.follows_router {router : Router} {tasks : List Task} (h : s.Fits)
    (hinv : router.Inv s.graph) (hlater : s.router.Later router)
    (htasks : ∀ task ∈ tasks, task ∈ s.tasks ∨ task.Sound s.graph router) :
    Follows s { s with router, tasks } := by
  refine ⟨⟨hinv, fun task htask => ?_⟩, hlater, fun _ => rfl⟩
  rcases htasks task htask with hold | hnew
  · exact (h.tasks task hold).later h.inv hlater id
  · exact hnew

theorem Fits.follows_ran {tasks : List Task} (h : s.Fits) (htasks : ∀ task ∈ tasks, task ∈ s.tasks)
    (hkept : Kept s.graph s.router stopped) : Follows s (s.ran tasks stopped) := by
  unfold System.ran
  split
  · -- a run that traps is taken back
    exact h.follows_router h.inv (.refl _) fun task htask => .inl (htasks task htask)
  · exact h.follows_router hkept.inv hkept.later fun task htask => .inl (htasks task htask)
  refine h.follows_router hkept.inv hkept.later fun task' htask' => ?_
  rcases List.mem_append.mp htask' with hold | hnew
  · exact .inl (htasks task' hold)
  · cases List.mem_singleton.mp hnew
    exact .inr (hkept.task rfl)

/-- A call of the store that is a command of its own. -/
theorem Fits.follows_called {α : Type} {result : Except RouterError (α × Store)} (h : s.Fits)
    (hok : ∀ {a store}, result = .ok (a, store) → Store.Step s.router.store store ∧
      (s.router.store.record = none → store.record ≠ none → ∀ key, s.router.rows key = none)) :
    Follows s (s.called (result.map Prod.snd)) := by
  cases result with
  | error e => exact h.follows
  | ok pair =>
    obtain ⟨hstep, hclean⟩ := hok rfl
    exact h.follows_router (h.inv.step hstep hclean) (Router.later_store (Store.later_step hstep))
      fun task htask => .inl htask

theorem Fits.follows_deliver (h : s.Fits) (hsent : s.router.calls[call]? = some sent) :
    Follows s
      { s with
        router := { s.router with calls := s.router.calls.eraseIdx call }
        graph := s.graph.deliver sent delivery } := by
  have hmem : sent ∈ s.router.calls := List.mem_of_getElem? hsent
  have hlater : s.router.Later { s.router with calls := s.router.calls.eraseIdx call } :=
    ⟨.refl _, fun hrecord _ _ => ⟨_, hrecord, rfl, rfl⟩⟩
  have hfewer : ∀ call' ∈ s.router.calls.eraseIdx call, call' ∈ s.router.calls :=
    fun _ => List.mem_of_mem_eraseIdx
  rcases s.graph.deliver_eq sent delivery with hsame | ⟨hnone, count, hcount, hentered⟩
  · rw [hsame]
    exact h.follows_router (h.inv.withCalls hfewer) hlater fun task htask => .inl htask
  rw [hentered]
  have hsentNow := (h.inv.calls sent hmem).2 hnone
  have hzero := h.inv.writes_eq_zero hsentNow hnone
  refine ⟨⟨(h.inv.enter hcount hmem hnone).withCalls hfewer, fun task htask => ?_⟩, hlater,
    fun {owner} hdone => ?_⟩
  · refine (h.tasks task htask).later h.inv hlater fun {owner k} hk => ?_
    rw [Graph.writes_enter, if_neg, hk]
    rintro ⟨rfl, rfl⟩
    rw [hzero] at hk
    cases hk
  · funext k
    rw [Graph.writes_enter, if_neg]
    rintro ⟨rfl, -⟩
    exact hdone hsentNow.pending

/-- Every event keeps the router and the shards together, and writes no row of
a chunk that is not pending. -/
theorem Fits.follows_step {event : Event} (h : s.Fits) (hclean : s.CleanStart event) :
    Follows s (s.step env event) := by
  cases event with
  | start target =>
    exact h.follows_called fun hok => ⟨Store.startBulkLoadJob_step hok, fun hnone _ => hclean hnone⟩
  | append chunk fingerprint => exact h.follows_ran (fun _ => id) (kept_appendBulkLoad h.inv)
  | appendUpdates chunk fingerprint items m =>
    exact h.follows_ran (fun _ => id) (kept_appendBulkLoadUpdates h.inv)
  | finalize now => exact h.follows_ran (fun _ => id) (kept_finalizeBulkLoad h.inv)
  | abort now => exact h.follows_ran (fun _ => id) (kept_abortBulkLoad h.inv)
  | collect now =>
    refine h.follows_called fun hok => ⟨Store.bulkLoadReceiptGcStep_step hok, fun hnone hsome => ?_⟩
    unfold Store.bulkLoadReceiptGcStep at hok
    rw [hnone] at hok
    cases hok
    exact absurd hnone hsome
  | allocate =>
    refine h.follows_called fun hok => ⟨Store.allocateMutationId_step hok, fun hnone hsome => ?_⟩
    obtain ⟨next, -, hok⟩ := bind_inv hok
    cases hok
    exact absurd hnone hsome
  | resume task reply m =>
    unfold System.step
    dsimp only
    split
    · exact h.follows
    next waiting hwaiting =>
    split
    · exact h.follows
    next hresume =>
    exact h.follows_ran (fun _ => List.mem_of_mem_eraseIdx)
      (kept_resume h.inv (h.tasks waiting (List.mem_of_getElem? hwaiting)) hresume)
  | lose task =>
    exact h.follows_router h.inv (.refl _) fun _ htask => .inl (List.mem_of_mem_eraseIdx htask)
  | deliver call delivery =>
    unfold System.step
    dsimp only
    split
    · exact h.follows
    next hsent => exact h.follows_deliver hsent
  | recover key =>
    unfold System.step System.recoverRow
    dsimp only
    split
    · split
      · exact h.follows
      refine h.follows_router h.inv (.refl _) fun task htask => ?_
      rcases List.mem_append.mp htask with hold | hnew
      · exact .inl hold
      · cases List.mem_singleton.mp hnew
        exact .inr trivial
    · exact h.follows
  | evict key now =>
    exact h.follows_router h.inv.evict Router.later_evict fun _ htask => .inl htask

theorem Fits.run (h : s.Fits) (hrun : AllSteps (System.step env) CleanStart s events) :
    (events.foldl (System.step env) s).Fits :=
  have hstep : ∀ (s : System) (event : Event), s.Fits → s.CleanStart event → (s.step env event).Fits :=
    fun _ _ h hclean => (h.follows_step hclean).fits
  foldl_invariant hstep h hrun

/-- The rows of a chunk that was admitted and is not pending are not written
any more. -/
theorem Fits.writes_run (h : s.Fits) (hadmitted : s.router.store.Admitted owner)
    (hdone : ¬ s.router.store.Pending owner) (hrun : AllSteps (System.step env) CleanStart s events) :
    (events.foldl (System.step env) s).graph.writes owner = s.graph.writes owner := by
  have hstep : ∀ (s' : System) (event : Event),
      (s'.Fits ∧ s'.router.store.Admitted owner ∧ ¬ s'.router.store.Pending owner ∧
        s'.graph.writes owner = s.graph.writes owner) → s'.CleanStart event →
      (s'.step env event).Fits ∧ (s'.step env event).router.store.Admitted owner ∧
        ¬ (s'.step env event).router.store.Pending owner ∧
        (s'.step env event).graph.writes owner = s.graph.writes owner := by
    rintro s' event ⟨hfits, hadmitted, hdone, hwrites⟩ hclean
    obtain ⟨hfits', hlater, hsame⟩ := hfits.follows_step hclean
    exact ⟨hfits', hlater.store.admitted hadmitted,
      fun hpending => hdone (hlater.store.pending_of hadmitted hpending), (hsame hdone).trans hwrites⟩
  exact (foldl_invariant hstep ⟨h, hadmitted, hdone, rfl⟩ hrun).2.2.2

end System

/-- Whenever the receipt of an update chunk is completed, after any run: each
of its first rows, as many as the receipt counts, was written once, no other
row was, and this is so after every continuation of the run. -/
theorem update_receipt_tells_what_was_written (env : SystemEnv) (events later : List Event)
    (hrun : AllSteps (System.step env) System.CleanStart .fresh (events ++ later))
    (job chunk count : Nat) (child : BulkLoadChunkReceipt)
    (hchild : (events.foldl (System.step env) .fresh).router.store.receipt job chunk = some child)
    (hdone : child.progress = .completed) (hcount : child.updatedRowCount = some count) :
    (∀ i, (events.foldl (System.step env) .fresh).graph.writes ⟨job, chunk⟩ i =
        if i < count then 1 else 0) ∧
      ∀ i, ((events ++ later).foldl (System.step env) .fresh).graph.writes ⟨job, chunk⟩ i =
        if i < count then 1 else 0 := by
  obtain ⟨hevents, hlater⟩ := allSteps_append.mp hrun
  have hfits := System.fits_fresh.run hevents
  have hchild : Store.receiptAt _ ⟨job, chunk⟩ = some child := hchild
  have hwrites := hfits.inv.done hchild hdone hcount
  refine ⟨hwrites, fun i => ?_⟩
  have hclosed : ¬ (events.foldl (System.step env) .fresh).router.store.Pending ⟨job, chunk⟩ := by
    rintro ⟨child', hchild', hpending⟩
    cases hchild.symm.trans hchild'
    exact hpending.pending hdone
  rw [List.foldl_append, hfits.writes_run (hfits.inv.owned.admitted hchild) hclosed hlater, hwrites i]

namespace LostReply

/-- An append of two rows is lost after the first row was written; an abort
reads the journal of the first row and completes the chunk. -/
def aborted : List Event :=
  [.start ⟨7, [1]⟩, .appendUpdates 0 [10] [[1], [2]] .planned,
    .resume 0 (.vertexIds [[101], [102]]) .planned, .deliver 0 .applied, .lose 0,
    .abort 5, .resume 0 (.journal true) .planned]

end LostReply

open LostReply in
/-- The receipt counts one row; a retry of the append writes nothing more. -/
theorem update_receipt_tells_what_was_written_lost_reply :
    let s := aborted.foldl (System.step .admitting) .fresh
    let later := [.appendUpdates 0 [10] [[1], [2]] .planned]
    (s.router.store.receipt 1 0).map (fun child => (child.progress, child.updatedRowCount)) =
        some (.completed, some 1) ∧
      (∀ i, s.graph.writes ⟨1, 0⟩ i = if i < 1 then 1 else 0) ∧
      ∀ i, ((aborted ++ later).foldl (System.step .admitting) .fresh).graph.writes ⟨1, 0⟩ i =
        if i < 1 then 1 else 0 := by
  intro s later
  have hreceipt : (s.router.store.receipt 1 0).map (fun child => (child.progress, child.updatedRowCount)) =
      some (.completed, some 1) := by decide +kernel
  have hrun : AllSteps (System.step .admitting) System.CleanStart .fresh (aborted ++ later) :=
    ⟨fun _ _ => rfl, trivial, trivial, trivial, trivial, trivial, trivial, trivial, trivial⟩
  obtain ⟨child, hchild, htold⟩ := Option.map_eq_some_iff.mp hreceipt
  injection htold with hdone hcount
  exact ⟨hreceipt, update_receipt_tells_what_was_written .admitting aborted later hrun 1 0 1 child hchild hdone
    hcount⟩

end Gleaph.Bulk
