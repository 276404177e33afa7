import Gleaph.Bulk.RowCalls

/-!
# Gleaph.Bulk.Rules

What the commands of a bulk load keep.

A property that the calls on the store and on the records keep is kept by the
commands made of them: `driveBulkChild_rule` for an insert chunk,
`RowRule.executeRow` and `RowRule.resumeRow` for the mutation of a row.
-/

namespace Gleaph.Bulk

/-! ## Insert chunks -/

section Drive

variable {env : SystemEnv} {r : Router} {d : Drive} {P : Router → Prop}

/-- A property that the moves of an insert chunk's receipt keep. -/
def KeptByMoves (env : SystemEnv) (ends : Bool) (P : Router → Prop) (job chunk : Nat) : Prop :=
  ∀ {r store record child child' record'}, P r →
    Store.ChildMove env.toBulkEnv none ends r.store job chunk store record child child' record' →
    P { r with store }

/-- A store call keeps a property if what follows a successful call keeps it. -/
theorem Router.call_rule (hr : P r)
    (hnext : ∀ {store}, result = .ok store → P (next { r with store }).1) :
    P (r.call result next).1 := by
  unfold Router.call
  split
  · exact hr
  next store hok => exact hnext rfl

/-- What child moves keep, driving a child keeps. -/
theorem driveBulkChild_rule (h : KeptByMoves env false P d.job d.chunk) (hr : P r) :
    P (driveBulkChild env r d).1 := by
  have hproject : P (r.call (r.store.recordBulkLoadProjectionPending env.toBulkEnv d.job d.chunk
      d.fingerprint) fun r => (r, .suspended (.drive d .project))).1 := by
    refine Router.call_rule hr fun hok => ?_
    obtain ⟨_, _, _, _, hmove⟩ := Store.withBulkChildTransition_eq_ok Store.projectionPending_step hok
    exact h hr hmove
  unfold driveBulkChild
  split
  · exact hr
  split
  · exact hr
  split
  · split <;> exact hr
  · split
    · exact hr
    · exact hproject
  · split
    · exact hr
    · exact hproject
  · split
    · exact hr
    · split <;> exact hr
  · split <;> exact hr

/-- What child moves keep, a driver that comes back from the graph keeps. -/
theorem driveDispatched_rule (h : KeptByMoves env false P d.job d.chunk) (hr : P r) :
    P (driveDispatched env r d request receipt).1 := by
  unfold driveDispatched
  split
  · exact hr
  split
  · exact hr
  refine Router.call_rule hr fun hok => ?_
  obtain ⟨_, _, _, _, hmove⟩ := Store.recordBulkLoadCanonicalCommitted_move hok
  exact driveBulkChild_rule h (h hr hmove)

end Drive

/-! ## The mutation of a row -/

section Rules

variable {env : SystemEnv} {g : Graph} {r r' : Router} {key : RowKey} {mutationId : Nat}

/-- A property that every move of a row's record and every plan sent keep; what
a move reads is in the journal. -/
structure RowRule (g : Graph) (P : Router → Prop) (key : RowKey) : Prop where
  move : ∀ {r r' mutationId entry}, P r → (∀ count, entry = some count →
    g.journal mutationId = some count) → Router.RowMove entry r key mutationId r' → P r'
  send : ∀ {r mutationId}, P r → r.scalarDispatchGate key mutationId = .ok .dispatch →
    P (r.send key mutationId)

variable {P : Router → Prop}

/-- A call that reads no journal. -/
theorem RowRule.keep (h : RowRule g P key) (hr : P r)
    (hmove : Router.RowMove none r key mutationId r') : P r' :=
  h.move hr (by simp) hmove

/-- Sending a row keeps what a row rule keeps. -/
theorem RowRule.sendRow (h : RowRule g P key) (hr : P r) :
    P (sendRow r key mutationId).1 := by
  unfold Bulk.sendRow
  split
  · exact hr
  · exact hr
  · exact hr
  next hgate => exact h.send hr hgate

/-- Releasing the routing is a move of the row, for its owner and for a caller
that is not the owner. -/
theorem releaseRoutingIfOwner_eq_ok
    (h : releaseRoutingIfOwner r key mutationId routingOwner = .ok r') :
    Router.RowMove entry r key mutationId r' := by
  unfold releaseRoutingIfOwner at h
  split_ifs at h
  · exact Router.abandonRouting_eq_ok h
  · cases h
    exact .same

/-- Dispatching a row keeps what a row rule keeps, in each of its fates. -/
theorem RowRule.dispatchRow (h : RowRule g P key) (hr : P r) :
    P (dispatchRow r key mutationId routingOwner fate).1 := by
  unfold Bulk.dispatchRow
  split
  · exact hr
  split
  · split
    · exact hr
    next hok => exact h.keep hr (releaseRoutingIfOwner_eq_ok hok)
  · split
    · exact hr
    next hok => exact h.keep hr (releaseRoutingIfOwner_eq_ok hok)
  · split
    · exact hr
    next hok => exact h.sendRow (h.keep hr (Router.recordRouterMutationShards_eq_ok hok))

/-- Executing a row keeps it too, once the row's reservation does. -/
theorem RowRule.executeRow (h : RowRule g P ⟨loop.chunk, row.ordinal⟩) (hr : P r)
    (hreserve : ∀ {mutationId r'}, Router.Reserves r ⟨loop.chunk, row.ordinal⟩ ⟨loop.job, loop.chunk⟩
      mutationId r' → P r') : P (executeRow env r loop row m).1 := by
  unfold Bulk.executeRow
  dsimp only
  split
  · exact hr
  split
  · exact hr
  next hok =>
  have hreserved := hreserve (Router.reserveBulkLoadUpdateRow_eq_ok hok)
  split
  · exact hreserved
  split
  · exact hreserved
  · exact h.dispatchRow hreserved

/-! ### After a reply -/

/-- A count that was read is the journal's. -/
theorem Graph.read_eq_some {read : Bool} (h : g.read mutationId read = some count) :
    g.journal mutationId = some count := by
  unfold Graph.read at h
  split_ifs at h
  exact h

section

variable (h : RowRule g P key) (hr : P r)

include h hr

/-- Capturing a row's canonical completion keeps it, the count being the
journal's. -/
theorem RowRule.captureRow {read : Bool}
    (hok : captureRow r key mutationId (g.read mutationId read) now = .ok (entry, r')) : P r' :=
  h.move hr (fun _ => Graph.read_eq_some) (Router.captureRow_eq_ok hok).2

/-- Publishing a row keeps it. -/
theorem RowRule.publishRow : P (publishRow r key mutationId count now).1 := by
  unfold Bulk.publishRow
  split
  · exact hr
  next hok => exact h.keep hr (Router.recordProjectionAdvanced_eq_ok hok)

/-- So does a row that is reconciled after a failed send. -/
theorem RowRule.reconciledRow : P (reconciledRow r key mutationId routingOwner fate now).1 := by
  unfold Bulk.reconciledRow
  split
  · exact hr
  next hok => exact h.dispatchRow (h.keep hr (Router.recordProjectionAdvanced_eq_ok hok))

end

@[simp] theorem repliedRow_fst : (repliedRow r mutationId reply entry).1 = r := by
  unfold repliedRow
  split
  · split <;> rfl
  all_goals rfl

/-- So does resuming a row at any of its awaits. -/
theorem RowRule.resumeRow {loop : RowLoop} (h : RowRule g P ⟨loop.chunk, row.ordinal⟩) (hr : P r)
    (hresume : resumeRow g r loop row mutationId m call reply = some stopped) : P stopped.1 := by
  unfold Bulk.resumeRow at hresume
  split at hresume
  · split at hresume
    · cases hresume
      exact hr
    next hok =>
      cases hresume
      exact h.captureRow hr hok
    next hok =>
      cases hresume
      exact h.captureRow hr hok
  · cases hresume
    exact h.reconciledRow hr
  · cases hresume
    exact hr
  · cases hresume
    exact hr
  · split at hresume
    · cases hresume
      exact hr
    next hok =>
      cases hresume
      exact h.captureRow hr hok
    next hok =>
    cases hresume
    rw [repliedRow_fst]
    exact h.captureRow hr hok
  · cases hresume
    rw [repliedRow_fst]
    exact hr
  · cases hresume
    exact h.publishRow hr
  · cases hresume
    exact hr
  · cases hresume
    exact hr
  · cases hresume
    exact hr
  · cases hresume

/-- The loop after a row: it stops, or goes on behind a written row. -/
theorem afterRow_rule (hstopped : P stopped.1)
    (hcounted : ∀ {store}, stopped.2 = .counted 1 →
      stopped.1.store.recordBulkLoadUpdateProgress env.toBulkEnv loop.job loop.chunk loop.fingerprint
        (row.ordinal + 1) = .ok store → P (next { stopped.1 with store }).1) :
    P (afterRow env loop row rest next stopped).1 := by
  obtain ⟨r, flow⟩ := stopped
  cases flow with
  | failed e => exact hstopped
  | waits mutationId call => exact hstopped
  | counted count =>
    unfold afterRow
    dsimp only
    split
    · exact hstopped
    next hcommitted =>
      have hone : count = 1 := by
        unfold appliedTargetOutcome at hcommitted
        split at hcommitted <;> simp_all
      exact Router.call_rule hstopped fun hok => hcounted (hone ▸ rfl) hok
    · exact hstopped

end Rules

end Gleaph.Bulk
