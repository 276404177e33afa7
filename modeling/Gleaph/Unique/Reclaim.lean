import Gleaph.Unique.Reservation

/-!
# Gleaph.Unique.Reclaim

How the router decides what to do with a reservation that was not confirmed.

A proof reads from every shard of the claim's scope whether the claim's effect
is there.  `classifyProofResponses` is strict about absence: every shard has to
say so in a row for this claim.  Absence alone does not free the value; the
mutation has to be failed for good in the same step
(`terminallyFailUncommittedDispatch`), and from then on `scalarDispatchGate`
lets no write of it out.
-/

namespace Gleaph

open Function

/-! ## Proofs -/

structure UniqueAcquireEvidence where
  effectId : EffectId
  ownerElementId : List UInt8
deriving DecidableEq

structure UniqueAcquireProof where
  claimId : ClaimId
  acquire : Option UniqueAcquireEvidence
deriving DecidableEq

inductive ProofVerdict where
  | present (evidence : UniqueAcquireEvidence) (target : Nat)
  | allAbsent
  | inconclusive
deriving DecidableEq

/-- The responses in order, and whether all so far were an explicit absence. -/
def classifyResponses (claim : ClaimId) (allExplicitlyAbsent : Bool) :
    List (Nat × Option (List UniqueAcquireProof)) → ProofVerdict
  | [] => if allExplicitlyAbsent then .allAbsent else .inconclusive
  | (target, response) :: responses =>
    match response with
    | none => classifyResponses claim false responses
    | some proofs =>
      match proofs.find? (fun proof => proof.claimId = claim) with
      | none => classifyResponses claim false responses
      | some proof =>
        match proof.acquire with
        | some evidence => .present evidence target
        | none => classifyResponses claim allExplicitlyAbsent responses

/-- An empty scope proves nothing. -/
def classifyProofResponses (claim : ClaimId)
    (responses : List (Nat × Option (List UniqueAcquireProof))) : ProofVerdict :=
  if responses.isEmpty then .inconclusive else classifyResponses claim true responses

/-- One shard answers by its row for the claim. -/
theorem classify_singleton (h : classifyProofResponses claim [(target, response)] ≠ .inconclusive) :
    ∃ proofs proof, response = some proofs ∧ proof ∈ proofs ∧ proof.claimId = claim ∧
      classifyProofResponses claim [(target, response)] =
        proof.acquire.elim .allAbsent (.present · target) := by
  cases response with
  | none => simp [classifyProofResponses, classifyResponses] at h
  | some proofs =>
    simp only [classifyProofResponses, classifyResponses] at h ⊢
    cases hfind : proofs.find? (fun proof => proof.claimId = claim) with
    | none => simp [hfind] at h
    | some proof =>
      have hclaim := List.find?_some hfind
      refine ⟨proofs, proof, rfl, List.mem_of_find?_eq_some hfind, by simpa using hclaim, ?_⟩
      cases hacquire : proof.acquire <;> simp [hacquire]

/-- Absence from one shard is an explicit row without an effect. -/
theorem classify_singleton_allAbsent
    (h : classifyProofResponses claim [(target, response)] = .allAbsent) :
    ∃ proofs proof, response = some proofs ∧ proof ∈ proofs ∧ proof.claimId = claim ∧
      proof.acquire = none := by
  obtain ⟨proofs, proof, hresponse, hproof, hclaim, hverdict⟩ := classify_singleton (h.trans_ne (by simp))
  refine ⟨proofs, proof, hresponse, hproof, hclaim, ?_⟩
  cases hacquire : proof.acquire <;> simp_all

theorem classify_singleton_present
    (h : classifyProofResponses claim [(target, response)] = .present evidence canister) :
    ∃ proofs proof, response = some proofs ∧ proof ∈ proofs ∧ proof.claimId = claim ∧
      proof.acquire = some evidence := by
  obtain ⟨proofs, proof, hresponse, hproof, hclaim, hverdict⟩ := classify_singleton (h.trans_ne (by simp))
  refine ⟨proofs, proof, hresponse, hproof, hclaim, ?_⟩
  cases hacquire : proof.acquire <;> simp_all

/-! ## Mutation records -/

structure RouterMutationShard where
  shardId : Nat
  graphCanister : Nat
  completed : Bool
deriving DecidableEq

/-- The dispatch envelope of a scalar mutation; the other families have no
unique claims. -/
inductive RouterMutationPayload where
  | scalar (shards : List RouterMutationShard)
  | other
deriving DecidableEq

structure RouterMutationRecord where
  mutationId : Nat
  completedRowCount : Option Nat
  routingInProgress : Bool
  payload : RouterMutationPayload
  terminalFailure : Option String
deriving DecidableEq

namespace RouterMutationRecord

def shards (record : RouterMutationRecord) : List RouterMutationShard :=
  match record.payload with
  | .scalar shards => shards
  | .other => []

def isUncommittedDispatch (record : RouterMutationRecord) : Bool :=
  record.terminalFailure.isNone && !record.routingInProgress &&
    match record.payload with
    | .scalar shards => !shards.isEmpty && shards.all (!·.completed)
    | .other => false

def isTerminal (record : RouterMutationRecord) : Bool :=
  record.terminalFailure.isSome || record.completedRowCount.isSome

end RouterMutationRecord

/-- Who a mutation with open reservations belongs to, and how many it has. -/
structure ReservationIndexEntry where
  clientKey : Nat
  nonterminal : Nat
deriving DecidableEq

/-- The router's tables, with client keys as numbers. -/
structure RouterStore where
  reservations : ReservationTable
  records : Nat → Option RouterMutationRecord
  index : Nat → Option ReservationIndexEntry
  nextMutationId : Nat

namespace RouterStore

/-! ## Slots -/

def preflightReservationSlots (store : RouterStore) (mutationId freshUpper : Nat) :
    Except UniqueError Unit :=
  if 2 ^ 32 ≤ ((store.index mutationId).elim 0 (·.nonterminal)) + freshUpper then
    .error (.internal s!"non-terminal reservation count overflow for mutation {mutationId}")
  else .ok ()

/-- Count new reservations; the error is a trap. -/
def applyReservationSlots (store : RouterStore) (mutationId clientKey fresh : Nat) :
    Except String RouterStore :=
  if fresh = 0 then .ok store
  else
    match store.index mutationId with
    | none => .ok { store with index := update store.index mutationId (some ⟨clientKey, fresh⟩) }
    | some entry =>
      if entry.clientKey ≠ clientKey then
        .error "a mutation_id must map to exactly one ClientMutationKey"
      else if 2 ^ 32 ≤ entry.nonterminal + fresh then
        .error "overflowed on apply despite the overflow preflight"
      else .ok { store with
        index := update store.index mutationId
          (some ⟨clientKey, entry.nonterminal + fresh⟩) }

/-- One reservation less is open; the error is a trap. -/
def releaseReservationSlot (store : RouterStore) (mutationId : Nat) : Except String RouterStore :=
  match store.index mutationId with
  | none => .error "reservation slot release with no reverse index row"
  | some entry =>
    if entry.nonterminal = 0 then .error "reservation slot release at zero count"
    else if entry.nonterminal = 1 then
      .ok { store with index := update store.index mutationId none }
    else .ok { store with
      index := update store.index mutationId
        (some { entry with nonterminal := entry.nonterminal - 1 }) }

variable {clientKey mutationId : Nat} {store store' : RouterStore}

/-- Only the row of the mutation changes, and it is its client's. -/
theorem applyReservationSlots_eq_ok {fresh : Nat}
    (h : store.applyReservationSlots mutationId clientKey fresh = .ok store') :
    ∃ index, store' = { store with index } ∧ ∀ m entry, index m = some entry →
      store.index m = some entry ∨ (m = mutationId ∧ entry.clientKey = clientKey) := by
  have hupdate : ∀ count m entry,
      update store.index mutationId (some ⟨clientKey, count⟩) m = some entry →
        store.index m = some entry ∨ (m = mutationId ∧ entry.clientKey = clientKey) := by
    intro count m entry hentry
    rcases update_eq_some.mp hentry with ⟨rfl, ⟨⟩⟩ | ⟨-, hentry⟩
    · exact .inr ⟨rfl, rfl⟩
    · exact .inl hentry
  unfold applyReservationSlots at h
  split at h
  · cases h
    exact ⟨store.index, rfl, fun _ _ => .inl⟩
  split at h
  · cases h
    exact ⟨_, rfl, hupdate fresh⟩
  split at h
  · cases h
  split at h
  · cases h
  · cases h
    exact ⟨_, rfl, hupdate _⟩

/-! ## Try and gate -/

/-- Reserve the claims of a mutation for its targets.  The outer error is a
trap. -/
def tryReserveUnique (store : RouterStore) (clientKey graphId mutationId : Nat)
    (claims : List ReservationClaim) (dispatches : List ProofShard) (nowNs : Nat) :
    Except String (Except UniqueError RouterStore) :=
  match store.preflightReservationSlots mutationId claims.length with
  | .error e => .ok (.error e)
  | .ok _ =>
    match tryReserve graphId mutationId claims dispatches nowNs store.reservations with
    | .error e => .ok (.error e)
    | .ok (fresh, reservations) =>
      ({ store with reservations }.applyReservationSlots mutationId clientKey fresh).map .ok

inductive ScalarDispatchGate where
  | completed (count : Nat)
  | reconcile
  | dispatch
deriving DecidableEq

def scalarMutationRecord (store : RouterStore) (clientKey mutationId : Nat) :
    Except UniqueError RouterMutationRecord :=
  match store.records clientKey with
  | none => .error (.conflict "scalar mutation record is unavailable")
  | some record =>
    if record.mutationId ≠ mutationId then .error (.conflict "scalar mutation identity changed")
    else
      match record.terminalFailure with
      | some error => .error (.conflict error)
      | none => .ok record

/-- Read right before the write is sent. -/
def scalarDispatchGate (store : RouterStore) (clientKey mutationId : Nat) (target : ProofShard) :
    Except UniqueError ScalarDispatchGate := do
  let record ← store.scalarMutationRecord clientKey mutationId
  match record.completedRowCount with
  | some count => .ok (.completed count)
  | none =>
    if record.routingInProgress then
      .error (.conflict "scalar dispatch requires a durable shard envelope")
    else
      match record.shards.find? (fun shard => shard.shardId = target.shardId) with
      | none => .error .shardNotRegistered
      | some shard =>
        if shard.graphCanister ≠ target.graphCanister then
          .error (.conflict "scalar dispatch target differs from the durable envelope")
        else if shard.completed then .ok .reconcile
        else .ok .dispatch

/-- A gate that opens has found the mutation's own record, not failed. -/
theorem scalarDispatchGate_eq_dispatch
    (h : store.scalarDispatchGate clientKey mutationId target = .ok .dispatch) :
    ∃ record, store.records clientKey = some record ∧ record.mutationId = mutationId ∧
      record.terminalFailure = none := by
  obtain ⟨record, hrecord, -⟩ := bind_inv h
  unfold scalarMutationRecord at hrecord
  split at hrecord
  · cases hrecord
  next record' hsome =>
    split at hrecord
    · cases hrecord
    next hid =>
      split at hrecord
      · cases hrecord
      next hfailure => exact ⟨record', hsome, not_not.mp hid, hfailure⟩

/-! ## Cancel -/

/-- Fail a mutation for good, unless its write was confirmed or it is being
routed; the flag says that it is failed now. -/
def terminallyFailUncommittedDispatch (store : RouterStore) (clientKey mutationId : Nat)
    (error : String) : Bool × RouterStore :=
  match store.records clientKey with
  | none => (false, store)
  | some record =>
    if record.mutationId ≠ mutationId then (false, store)
    else if record.terminalFailure.isSome then (true, store)
    else if !record.isUncommittedDispatch then (false, store)
    else (true, { store with
      records := update store.records clientKey
        (some { record with terminalFailure := some error }) })

/-- Free a value whose write has not happened, and fail its mutation in the
same step.  The outer error is a trap. -/
def reclaimCancelUncommitted (store : RouterStore) (key : UniqueReservationKey) (claimId : ClaimId)
    (generation : Nat) (error : String) : Except String (Bool × RouterStore) :=
  match store.index claimId.mutationId with
  | none => .ok (false, store)
  | some entry =>
    if !isReclaimingAt key claimId generation store.reservations then .ok (false, store)
    else
      match store.terminallyFailUncommittedDispatch entry.clientKey claimId.mutationId error with
      | (false, _) => .ok (false, store)
      | (true, store) =>
        match cancelReclaim key claimId generation store.reservations with
        | (false, _) => .error "preflighted reclaim cancel must apply atomically"
        | (true, reservations) =>
          ({ store with reservations }.releaseReservationSlot claimId.mutationId).map
            fun store => (true, store)

/-- The record is the mutation's, and is failed now. -/
theorem terminallyFail_eq_true
    (h : store.terminallyFailUncommittedDispatch clientKey mutationId error = (true, store')) :
    ∃ record failed, store.records clientKey = some record ∧ record.mutationId = mutationId ∧
      failed.mutationId = mutationId ∧ failed.terminalFailure.isSome ∧
      store' = { store with records := update store.records clientKey (some failed) } := by
  unfold terminallyFailUncommittedDispatch at h
  split at h
  · cases h
  next record hrecord =>
    split at h
    · cases h
    next hid =>
      have hid := not_not.mp hid
      split at h
      next hfailed =>
        cases h
        exact ⟨record, record, hrecord, hid, hid, hfailed, by simp [← hrecord]⟩
      · split at h
        · cases h
        · cases h
          exact ⟨record, { record with terminalFailure := some error }, hrecord, hid, hid, rfl, rfl⟩

/-- A cancel does nothing, or takes the entry away in the step in which the
mutation is failed. -/
theorem reclaimCancelUncommitted_cases
    (h : store.reclaimCancelUncommitted key claimId generation error = .ok (cancelled, store')) :
    (cancelled = false ∧ store' = store) ∨
      (cancelled = true ∧ ∃ entry reserved record failed,
        store.index claimId.mutationId = some entry ∧
        store.reservations key = some reserved ∧ reserved.claim = claimId ∧
        reserved.state = .reclaiming ∧ reserved.reclaimGeneration = generation ∧
        store.records entry.clientKey = some record ∧ record.mutationId = claimId.mutationId ∧
        failed.mutationId = claimId.mutationId ∧ failed.terminalFailure.isSome ∧
        { store with
          records := update store.records entry.clientKey (some failed)
          reservations := update store.reservations key none }.releaseReservationSlot
            claimId.mutationId = .ok store') := by
  unfold reclaimCancelUncommitted at h
  split at h
  · cases h
    exact .inl ⟨rfl, rfl⟩
  next entry hentry =>
    split at h
    · cases h
      exact .inl ⟨rfl, rfl⟩
    split at h
    · cases h
      exact .inl ⟨rfl, rfl⟩
    next store₁ hfail =>
      obtain ⟨record, failed, hrecord, hid, hid', hfailed, rfl⟩ := terminallyFail_eq_true hfail
      split at h
      · cases h
      next reservations hcancel =>
        rcases underFence_cases hcancel with ⟨hfalse, -⟩ | ⟨-, reserved, hreserved, hclaim, hstate,
          hgen, rfl⟩
        · cases hfalse
        obtain ⟨final, hslot, h⟩ := map_eq_ok.mp h
        cases h
        exact .inr ⟨rfl, entry, reserved, record, failed, hentry, hreserved, hclaim, hstate, hgen,
          hrecord, hid, hid', hfailed, hslot⟩

def holdUniqueReclaim (store : RouterStore) (key : UniqueReservationKey) (claimId : ClaimId)
    (generation : Nat) : RouterStore :=
  { store with reservations := (holdReclaim key claimId generation store.reservations).2 }

structure AckRequest where
  target : Nat
  effectId : EffectId
deriving DecidableEq

def reclaimError (mutationId : Nat) : String :=
  s!"cross-shard uniqueness reservation reclaimed: mutation {mutationId} produced no " ++
    "Acquire on any proof-scope shard and its canonical dispatch never committed; the " ++
    "mutation is terminally failed (ADR 0030 slice 6)"

variable (store : RouterStore) (key : UniqueReservationKey)

/-- Apply the verdict of a proof under its ticket.  The outer error is a
trap. -/
def resolveReclaim (ticket : ReclaimTicket) :
    ProofVerdict → Except String (RouterStore × Option AckRequest)
  | .present evidence target =>
    match applyReclaimCommit key ticket.claim ticket.generation evidence.ownerElementId
        evidence.effectId store.reservations with
    | (false, _) => .ok (store, none)
    | (true, reservations) =>
      ({ store with reservations }.releaseReservationSlot ticket.claim.mutationId).map
        fun store => (store, some ⟨target, evidence.effectId⟩)
  | .allAbsent => do
    let (cancelled, store) ← store.reclaimCancelUncommitted key ticket.claim ticket.generation
      (reclaimError ticket.claim.mutationId)
    .ok (if cancelled then (store, none)
      else (store.holdUniqueReclaim key ticket.claim ticket.generation, none))
  | .inconclusive => .ok (store.holdUniqueReclaim key ticket.claim ticket.generation, none)

/-- A committed reservation whose effect may still be there: acknowledge it
again, or find that it was acknowledged. -/
def resolveCommittedPending (claim : ClaimId) :
    ProofVerdict → RouterStore × Option AckRequest
  | .present evidence target => (store, some ⟨target, evidence.effectId⟩)
  | .allAbsent =>
    ({ store with reservations := (clearAcquireAck key claim store.reservations).2 }, none)
  | .inconclusive => (store, none)

/-- Confirm one claim and close its slot; the flag says that its effect is to
be acknowledged.  The outer error is a trap. -/
def confirmClaim (claimId : ClaimId) (evidence : UniqueAcquireEvidence) :
    Except String (RouterStore × Bool) :=
  match confirmReservation key claimId evidence.ownerElementId evidence.effectId
      store.reservations with
  | (.freshlyCommitted, reservations) =>
    ({ store with reservations }.releaseReservationSlot claimId.mutationId).map
      fun store => (store, true)
  | (.alreadyCommitted, reservations) => .ok ({ store with reservations }, true)
  | (.notApplicable, reservations) => .ok ({ store with reservations }, false)

end RouterStore

end Gleaph
