import Gleaph.Runs
import Gleaph.Unique.Reclaim

/-!
# Gleaph.Unique.Protocol

The protocol of cross-shard uniqueness: the router, its shards, and what may
happen between them.

The router reserves the values of a mutation and sends the write to its one
shard in one step; the shard records the effects when it processes the write,
keeps them until they are acknowledged, and answers proof reads.  A shard takes
the router's messages in the order they were sent.  Everything else happens at
any time: confirmations, proofs (several for one value, resolved late or
never), acknowledgements, deletions and releases.

`UniqueWorld` is the router with its shards, `UniqueWorld.step` one event;
`Gleaph.Unique.Safety` proves that a value never has two owners.
-/

namespace Gleaph

open Function

/-! ## The world -/

/-- What a mutation asks for: fixed when its id is allocated. -/
structure MutationPlan where
  clientKey : Nat
  graphId : Nat
  claims : List ReservationClaim
  shard : ProofShard
deriving DecidableEq

inductive ShardMessage where
  | write (mutationId : Nat)
  | proof (index : Nat)
  | ack (effectId : EffectId)
deriving DecidableEq

/-- Why a proof is read: to confirm a mutation, to resolve a reclaim, or to
find out about an acknowledgement. -/
inductive ProofPurpose where
  | confirm (mutationId : Nat)
  | reclaim (key : UniqueReservationKey) (ticket : ReclaimTicket)
  | committed (key : UniqueReservationKey) (claim : ClaimId)
deriving DecidableEq

structure ProofRead where
  purpose : ProofPurpose
  claims : List ClaimId
  target : ProofShard
  response : Option (List UniqueAcquireProof)
deriving DecidableEq

structure UniqueWorld where
  router : RouterStore
  plans : Nat → Option MutationPlan
  inbox : ProofShard → List ShardMessage
  /-- The shard's journal: for each claim of a mutation that is done, by its
  ordinal, the element that has the value. -/
  journal : ProofShard → Nat → Option (Nat → List UInt8)
  /-- The effects a shard keeps. -/
  outbox : ProofShard → ClaimId → Option UniqueAcquireEvidence
  /-- All elements that ever had a value. -/
  elements : List (List UInt8)
  /-- The claim's element is deleted, or has given the value up. -/
  deleted : ClaimId → Bool
  proofs : List ProofRead

inductive UniqueEvent where
  /-- A new mutation gets its id and its record. -/
  | admitMutation (plan : MutationPlan)
  /-- Try, gate and send; also when the mutation is sent again. -/
  | dispatch (mutationId nowNs : Nat)
  /-- The answer to the write reaches the router. -/
  | shardReply (mutationId : Nat)
  | complete (mutationId rowCount : Nat)
  /-- A record that is terminal and has no open reservation expires. -/
  | expire (clientKey : Nat)
  /-- The shard takes its next message; a write makes these elements, or
  fails. -/
  | process (shard : ProofShard) (owners : Nat → List UInt8) (fails : Bool)
  | readProof (mutationId : Nat)
  | confirm (proof : Nat)
  | clearAck (key : UniqueReservationKey) (claim : ClaimId)
  | beginReclaim (key : UniqueReservationKey)
  | resumeReclaim (key : UniqueReservationKey)
  /-- The outcome of a proof is applied; a lost reply says nothing. -/
  | resolve (proof : Nat) (lost : Bool)
  | readCommitted (key : UniqueReservationKey)
  | resolveCommitted (proof : Nat) (lost : Bool)
  | delete (mutationId : Nat) (claim : ReservationClaim)
  /-- The release of a deleted element's value reaches the router. -/
  | release (mutationId : Nat) (claim : ReservationClaim)

namespace UniqueWorld

def send (w : UniqueWorld) (shard : ProofShard) (messages : List ShardMessage) : UniqueWorld :=
  { w with inbox := update w.inbox shard (w.inbox shard ++ messages) }

/-- Send a proof read and keep it until it is resolved. -/
def sendProof (w : UniqueWorld) (purpose : ProofPurpose) (claims : List ClaimId)
    (target : ProofShard) : UniqueWorld :=
  let proof : ProofRead := ⟨purpose, claims, target, none⟩
  { w with proofs := w.proofs ++ [proof] }.send target [.proof w.proofs.length]

/-- The proof of a reclaim goes to the one shard of its scope. -/
def sendReclaim (w : UniqueWorld) (key : UniqueReservationKey) (ticket : ReclaimTicket) :
    UniqueWorld :=
  match ticket.proofScope with
  | [target] => w.sendProof (.reclaim key ticket) [ticket.claim] target
  | _ => w

/-- The responses as the router sees them. -/
def responses (proof : ProofRead) (lost : Bool) : List (Nat × Option (List UniqueAcquireProof)) :=
  [(proof.target.graphCanister, if lost then none else proof.response)]

/-- Confirm each claim that the proofs back; the effects are to be
acknowledged. -/
def confirmProofs (plan : MutationPlan) (mutationId : Nat) (store : RouterStore) :
    List UniqueAcquireProof → Except String (RouterStore × List EffectId)
  | [] => .ok (store, [])
  | proof :: proofs =>
    match proof.acquire, plan.claims.find? (fun claim => proof.claimId = claim.claimId mutationId) with
    | some evidence, some claim => do
      let (store, owned) ← store.confirmClaim (claim.key plan.graphId) proof.claimId evidence
      let (store, acks) ← confirmProofs plan mutationId store proofs
      .ok (store, if owned then evidence.effectId :: acks else acks)
    | _, _ => confirmProofs plan mutationId store proofs

section

variable (w : UniqueWorld)

/-- The write gives each claim of the mutation its element; one element may
have several. -/
def record (shard : ProofShard) (mutationId : Nat) (plan : MutationPlan) (owners : Nat → List UInt8) :
    UniqueWorld :=
  { w with
    elements := plan.claims.map (fun claim => owners claim.claimOrdinal) ++ w.elements
    journal := update w.journal shard
      (update (w.journal shard) mutationId (some owners))
    outbox := update w.outbox shard fun claim =>
      if claim ∈ plan.claims.map (·.claimId mutationId) then
        some ⟨⟨mutationId, claim.claimOrdinal⟩, owners claim.claimOrdinal⟩
      else w.outbox shard claim }

/-- What the shard does with a message.  A write that is journaled is not done
again, and one that is done makes new elements. -/
def processMessage (shard : ProofShard) (owners : Nat → List UInt8) (fails : Bool) :
    ShardMessage → UniqueWorld
  | .write mutationId =>
    match w.plans mutationId, w.journal shard mutationId, fails with
    | some plan, none, false =>
      if ∃ claim ∈ plan.claims, owners claim.claimOrdinal ∈ w.elements then w
      else w.record shard mutationId plan owners
    | _, _, _ => w
  | .proof i =>
    match w.proofs[i]? with
    | some proof =>
      if proof.response.isSome then w
      else
        let proofs : List UniqueAcquireProof :=
          proof.claims.map fun claim => ⟨claim, w.outbox shard claim⟩
        { w with proofs := w.proofs.set i { proof with response := some proofs } }
    | none => w
  | .ack effectId =>
    let claim : ClaimId := ⟨effectId.mutationId, effectId.effectOrdinal⟩
    { w with
      outbox := update w.outbox shard (update (w.outbox shard) claim none) }

/-- Send the acknowledgement that a resolution asks for. -/
def sendAck (target : ProofShard) (ack : Option RouterStore.AckRequest) : UniqueWorld :=
  w.send target (ack.toList.map fun request => .ack request.effectId)

/-- Reserve, and send the write if the gate is open.  A trap leaves nothing. -/
def dispatch (mutationId nowNs : Nat) (plan : MutationPlan) : UniqueWorld :=
  match w.router.tryReserveUnique plan.clientKey plan.graphId mutationId plan.claims [plan.shard]
      nowNs with
  | .error _ => w
  | .ok (.error _) => w
  | .ok (.ok router) =>
    match router.scalarDispatchGate plan.clientKey mutationId plan.shard with
    | .ok .dispatch => { w with router }.send plan.shard [.write mutationId]
    | _ => { w with router }

/-- Change the record of a mutation. -/
def updateRecord (mutationId : Nat) (change : RouterMutationRecord → RouterMutationRecord) :
    UniqueWorld :=
  match w.plans mutationId with
  | none => w
  | some plan =>
    match w.router.records plan.clientKey with
    | none => w
    | some record =>
      if record.mutationId ≠ mutationId ∨ record.terminalFailure.isSome then w
      else { w with router := { w.router with
        records := update w.router.records plan.clientKey (some (change record)) } }

def admitted (plan : MutationPlan) : UniqueWorld :=
  let id := w.router.nextMutationId
  let shard : RouterMutationShard := ⟨plan.shard.shardId, plan.shard.graphCanister, false⟩
  { w with
    plans := update w.plans id (some plan)
    router := { w.router with
      nextMutationId := id + 1
      records := update w.router.records plan.clientKey
        (some ⟨id, none, false, .scalar [shard], none⟩) } }

def step : UniqueEvent → UniqueWorld
  | .admitMutation plan =>
    match w.router.records plan.clientKey with
    | none => w.admitted plan
    | some _ => w
  | .dispatch mutationId nowNs =>
    match w.plans mutationId with
    | none => w
    | some plan => w.dispatch mutationId nowNs plan
  | .shardReply mutationId =>
    w.updateRecord mutationId fun record => { record with
      payload := .scalar (record.shards.map fun shard => { shard with completed := true }) }
  | .complete mutationId rowCount =>
    w.updateRecord mutationId fun record =>
      if record.shards.all (·.completed) then
        { record with completedRowCount := some rowCount, payload := .scalar [] }
      else record
  | .expire clientKey =>
    match w.router.records clientKey with
    | none => w
    | some record =>
      if record.isTerminal && (w.router.index record.mutationId).isNone then
        { w with router := { w.router with
          records := update w.router.records clientKey none } }
      else w
  | .process shard owners fails =>
    match w.inbox shard with
    | [] => w
    | message :: messages =>
      { w with inbox := update w.inbox shard messages }.processMessage shard owners fails
        message
  | .readProof mutationId =>
    match w.plans mutationId with
    | none => w
    | some plan => w.sendProof (.confirm mutationId) (plan.claims.map (·.claimId mutationId)) plan.shard
  | .confirm i =>
    match w.proofs[i]? with
    | some ⟨.confirm mutationId, _, target, some proofs⟩ =>
      match w.plans mutationId with
      | none => w
      | some plan =>
        match confirmProofs plan mutationId w.router proofs with
        | .error _ => w
        | .ok (router, acks) => { w with router }.send target (acks.map .ack)
    | _ => w
  | .clearAck key claim =>
    { w with router := { w.router with
      reservations := (clearAcquireAck key claim w.router.reservations).2 } }
  | .beginReclaim key =>
    match Gleaph.beginReclaim key w.router.reservations with
    | none => w
    | some (ticket, reservations) =>
      { w with router := { w.router with reservations } }.sendReclaim key ticket
  | .resumeReclaim key =>
    match Gleaph.resumeReclaim key w.router.reservations with
    | none => w
    | some ticket => w.sendReclaim key ticket
  | .resolve i lost =>
    match w.proofs[i]? with
    | some ⟨.reclaim key ticket, claims, target, response⟩ =>
      match w.router.resolveReclaim key ticket (classifyProofResponses ticket.claim
          (responses ⟨.reclaim key ticket, claims, target, response⟩ lost)) with
      | .error _ => w
      | .ok (router, ack) => { w with router }.sendAck target ack
    | _ => w
  | .readCommitted key =>
    match w.router.reservations key with
    | some record =>
      match record.state, record.pendingAcquireAck, record.proofScope with
      | .committed, some _, [target] => w.sendProof (.committed key record.claim) [record.claim] target
      | _, _, _ => w
    | none => w
  | .resolveCommitted i lost =>
    match w.proofs[i]? with
    | some ⟨.committed key claim, claims, target, response⟩ =>
      match w.router.resolveCommittedPending key claim (classifyProofResponses claim
          (responses ⟨.committed key claim, claims, target, response⟩ lost)) with
      | (router, ack) => { w with router }.sendAck target ack
    | _ => w
  | .delete mutationId claim =>
    match w.plans mutationId with
    | none => w
    | some plan =>
      if (w.journal plan.shard mutationId).isSome && claim ∈ plan.claims then
        { w with deleted := update w.deleted (claim.claimId mutationId) true }
      else w
  | .release mutationId claim =>
    match w.plans mutationId with
    | none => w
    | some plan =>
      match w.journal plan.shard mutationId with
      | some owners =>
        if w.deleted (claim.claimId mutationId) && claim ∈ plan.claims then
          { w with router := { w.router with
            reservations := (releaseReservation (claim.key plan.graphId)
              (owners claim.claimOrdinal) w.router.reservations).2 } }
        else w
      | none => w

end

/-- Nothing has happened yet. -/
def initial : UniqueWorld where
  router := ⟨fun _ => none, fun _ => none, fun _ => none, 1⟩
  plans _ := none
  inbox _ := []
  journal _ _ := none
  outbox _ _ := none
  elements := []
  deleted _ := false
  proofs := []

end UniqueWorld

end Gleaph
