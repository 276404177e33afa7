import Gleaph.Unique.RouterEvents
import Gleaph.Unique.ShardEvents

/-!
# Gleaph.Unique.Safety

A constrained value never has two owners, in any interleaving of the protocol's
events: every event keeps the invariant, and an owner that is alive has the
value's one entry.
-/

namespace Gleaph

/-- The empty world has the invariant. -/
theorem UniqueInv.initial : UniqueInv .initial := by
  constructor <;> simp [UniqueWorld.initial, UniqueWorld.MadeBy, UniqueWorld.Claims]

/-- Every event keeps the invariant. -/
theorem UniqueInv.step (hinv : UniqueInv w) (event : UniqueEvent) : UniqueInv (w.step event) := by
  cases event <;> simp only [UniqueWorld.step]
  case admitMutation plan =>
    split
    · exact hinv.admitted
    · exact hinv
  case dispatch m nowNs =>
    split
    · exact hinv
    next plan hplan => exact hinv.dispatch hplan nowNs
  case shardReply m => exact hinv.updateRecord m fun _ => rfl
  case complete m rowCount =>
    refine hinv.updateRecord m fun record => ?_
    split <;> rfl
  case expire clientKey =>
    split
    · exact hinv
    split
    · exact hinv.expire clientKey
    · exact hinv
  case process shard owners fails =>
    split
    · exact hinv
    next message rest head => exact hinv.processMessage head owners fails
  case readProof m =>
    split
    · exact hinv
    · exact hinv.sendProof (.refl _) (by simp) (by simp)
  case confirm i =>
    split
    next m _ target proofs hread =>
      split
      · exact hinv
      split
      · exact hinv
      next hconfirm => exact hinv.confirm (List.mem_of_getElem? hread) rfl hconfirm
    · exact hinv
  case clearAck key c => exact hinv.storeKept (.clearAcquireAck ..)
  case beginReclaim key =>
    split
    · exact hinv
    next hbegin => exact hinv.beginReclaim hbegin
  case resumeReclaim key =>
    split
    · exact hinv
    next hresume => exact hinv.resumeReclaim hresume
  case resolve i lost =>
    split
    next hread =>
      split
      · exact hinv
      next hresolve => exact hinv.resolve hread rfl hresolve
    · exact hinv
  case readCommitted key =>
    split
    next record hrecord =>
      split
      next hstate _ _ =>
        refine hinv.sendProof (.refl _) (by simp) ?_
        rintro _ _ ⟨⟩
        exact ⟨record, hrecord, rfl, hstate⟩
      · exact hinv
    · exact hinv
  case resolveCommitted i lost =>
    split
    next hread => exact hinv.resolveCommitted (List.mem_of_getElem? hread) rfl lost
    · exact hinv
  case delete m claim =>
    split
    · exact hinv
    split
    · exact hinv.delete _
    · exact hinv
  case release m claim =>
    split
    · exact hinv
    next plan hplan =>
      split
      next owners hjournal =>
        split
        next hcond =>
          obtain ⟨hdeleted, hclaim⟩ : w.deleted (claim.claimId m) = true ∧ claim ∈ plan.claims := by
            simpa using hcond
          exact hinv.release ⟨plan, hplan, claim, hclaim, rfl, rfl⟩ ⟨plan.shard, owners, hjournal, rfl⟩
            hdeleted
        · exact hinv
      · exact hinv

/-! ## Uniqueness -/

/-- The claim's write was done at its shard, and its element is not deleted. -/
def UniqueWorld.Owns (w : UniqueWorld) (key : UniqueReservationKey) (c : ClaimId) : Prop :=
  w.Claims c key ∧ (∃ owner, w.MadeBy c owner) ∧ w.deleted c = false

/-- No value has two owners. -/
def UniqueWorld.UniquelyOwned (w : UniqueWorld) : Prop :=
  ∀ key c c', w.Owns key c → w.Owns key c' → c = c'

/-- Both owners have the value's entry in the router's table. -/
theorem UniqueInv.uniquelyOwned (hinv : UniqueInv w) : w.UniquelyOwned := by
  rintro key c c' ⟨hclaims, halive⟩ ⟨hclaims', halive'⟩
  obtain ⟨record, hrecord, rfl⟩ := hinv.holds c key hclaims (.inr halive)
  obtain ⟨record', hrecord', rfl⟩ := hinv.holds c' key hclaims' (.inr halive')
  rw [Option.mem_unique hrecord hrecord']

/-- So has every world that a run of events leads to. -/
theorem UniqueInv.run (events : List UniqueEvent) :
    UniqueInv (events.foldl UniqueWorld.step .initial) :=
  foldl_keeps (fun _ event hinv => hinv.step event) .initial events

/-- In every state of every run a constrained value has at most one owner that
is alive, over any number of mutations, values and shards. -/
theorem constrained_value_has_one_owner (events : List UniqueEvent) :
    (events.foldl UniqueWorld.step .initial).UniquelyOwned :=
  (UniqueInv.run events).uniquelyOwned

/-- Two mutations for one value: the first is never confirmed, and its element
goes; a proof under the first reclaim finds the effect, and the release frees
the value for the second. -/
def handOver : List UniqueEvent :=
  let claim : ReservationClaim := ⟨1, [7], 0⟩
  let shard : ProofShard := ⟨0, 0⟩
  let key : UniqueReservationKey := ⟨1, 1, [7]⟩
  [.admitMutation ⟨1, 1, [claim], shard⟩, .admitMutation ⟨2, 1, [claim], ⟨1, 1⟩⟩,
    .dispatch 1 0, .dispatch 2 0, .process shard (fun _ => [1]) false, .beginReclaim key,
    .process shard (fun _ => []) false, .delete 1 claim, .resolve 0 false, .clearAck key ⟨1, 0⟩,
    .release 1 claim, .dispatch 2 1, .process ⟨1, 1⟩ (fun _ => [2]) false]

example : ((handOver.take 5).foldl UniqueWorld.step .initial).deleted ⟨1, 0⟩ = false ∧
    (((handOver.take 5).foldl UniqueWorld.step .initial).journal ⟨0, 0⟩ 1).isSome ∧
    ((handOver.foldl UniqueWorld.step .initial).journal ⟨1, 1⟩ 2).isSome := by
  decide +kernel

/-! ## Effects and refusals -/

/-- The effect of a write that was done stays in its shard's outbox until its
reservation is committed or its element is deleted. -/
def UniqueWorld.EvidenceKept (w : UniqueWorld) : Prop :=
  ∀ c key shard owners, w.Claims c key → w.journal shard c.mutationId = some owners →
    (∃ evidence, w.outbox shard c = some evidence ∧ w.MadeBy c evidence.ownerElementId) ∨
      w.CommittedBy key c ∨ w.Done c

theorem acquire_evidence_is_kept (events : List UniqueEvent) :
    (events.foldl UniqueWorld.step .initial).EvidenceKept := by
  intro c key shard owners hclaims hjournal
  have hinv := UniqueInv.run events
  cases hout : (events.foldl UniqueWorld.step .initial).outbox shard c with
  | some evidence => exact .inl ⟨evidence, rfl, (hinv.pinned shard c evidence hout).1⟩
  | none => exact .inr (hinv.acked c key shard owners hclaims hjournal hout).symm

/-- A committed reservation is of a claim on the value whose write was done, and
the owner it names is the write's element. -/
def UniqueWorld.CommittedWritten (w : UniqueWorld) : Prop :=
  ∀ key record, w.router.reservations key = some record → record.state = .committed →
    w.Claims record.claim key ∧ (∃ owner, w.MadeBy record.claim owner) ∧
      ∀ owner, record.ownerElementId = some owner → w.MadeBy record.claim owner

theorem committed_reservation_was_written (events : List UniqueEvent) :
    (events.foldl UniqueWorld.step .initial).CommittedWritten := by
  intro key record hrecord hstate
  have hinv := UniqueInv.run events
  exact ⟨(hinv.entries key record hrecord).1, hinv.stamped key record hrecord hstate,
    fun owner => hinv.owners key record owner hrecord⟩

/-- A mutation that claims a value which an element of another one has is not
sent, and nothing changes. -/
def UniqueWorld.RefusesTaken (w : UniqueWorld) : Prop :=
  ∀ key c m plan nowNs, w.Owns key c → w.plans m = some plan → m ≠ c.mutationId →
    key ∈ plan.claims.map (·.key plan.graphId) → w.step (.dispatch m nowNs) = w

theorem taken_value_is_refused (events : List UniqueEvent) :
    (events.foldl UniqueWorld.step .initial).RefusesTaken := by
  intro key c m plan nowNs howns hplan hm hkey
  obtain ⟨record, hrecord, hclaim⟩ := (UniqueInv.run events).holds c key howns.1 (.inr howns.2)
  generalize events.foldl UniqueWorld.step .initial = w at *
  obtain ⟨claim, hmem, rfl⟩ := List.mem_map.mp hkey
  simp only [UniqueWorld.step, hplan, UniqueWorld.dispatch, RouterStore.tryReserveUnique]
  cases w.router.preflightReservationSlots m plan.claims.length with
  | error e => rfl
  | ok u =>
    cases htry : tryReserve plan.graphId m plan.claims [plan.shard] nowNs w.router.reservations with
    | error e => rfl
    | ok reserved =>
      -- a try that succeeds leaves the entry to the claim, but it is the owner's
      obtain ⟨-, hhas, hkept⟩ := tryReserve_spec htry
      obtain ⟨record', hrecord', hclaim', -⟩ := hhas claim hmem
      rcases hkept (claim.key plan.graphId) with hsame | ⟨hnone, -⟩
      · cases hrecord.symm.trans (hsame.symm.trans hrecord')
        exact absurd (congrArg ClaimId.mutationId (hclaim'.symm.trans hclaim)) hm
      · cases hrecord.symm.trans hnone

end Gleaph
