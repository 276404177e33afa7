import Gleaph.Unique.Protocol

/-!
# Gleaph.Unique.Invariant

The invariant behind cross-shard uniqueness.  What carries it:

* a claim whose write is under way or whose element is alive has its value
  (`UniqueInv.holds`);
* a value is taken away from a claim only when the claim's element is deleted
  (`Done`) or when its write has not happened and never will (`Dead`);
* a proof that may still cancel has no write of its mutation behind it: the
  value was closed since the proof was sent, or the generation has moved on
  (`UniqueInv.tickets`).

`RouterStep` says once what the router's events have in common, and
`UniqueInv.routerStep` that the invariant is kept by all of them.
-/

namespace Gleaph

open UniqueWorld

/-! ## What the invariant speaks of -/

namespace UniqueWorld

variable (w : UniqueWorld)

/-- The claim is one of its mutation's, for this value. -/
def Claims (c : ClaimId) (key : UniqueReservationKey) : Prop :=
  ∃ plan, w.plans c.mutationId = some plan ∧
    ∃ claim ∈ plan.claims, claim.claimId c.mutationId = c ∧ claim.key plan.graphId = key

/-- The claim's write was done, and this element has the value. -/
def MadeBy (c : ClaimId) (owner : List UInt8) : Prop :=
  ∃ shard owners, w.journal shard c.mutationId = some owners ∧ owners c.claimOrdinal = owner

def Unmade (m : Nat) : Prop := ∀ shard, w.journal shard m = none

def Unsent (m : Nat) : Prop := ∀ shard, .write m ∉ w.inbox shard

/-- The gate is closed for the mutation, for good. -/
def NoDispatch (m : Nat) : Prop :=
  ∀ clientKey record, w.router.records clientKey = some record → record.mutationId = m →
    record.terminalFailure.isSome

/-- The claim's element has come and gone. -/
def Done (c : ClaimId) : Prop := (∃ owner, w.MadeBy c owner) ∧ w.deleted c = true

/-- The mutation's write has not happened and never will. -/
def Dead (m : Nat) : Prop := w.NoDispatch m ∧ w.Unmade m ∧ w.Unsent m

/-- The claim's write is under way, or its element is alive. -/
def Active (c : ClaimId) : Prop :=
  (w.Unmade c.mutationId ∧ ¬w.Unsent c.mutationId) ∨
    ((∃ owner, w.MadeBy c owner) ∧ w.deleted c = false)

def HeldBy (key : UniqueReservationKey) (c : ClaimId) : Prop :=
  ∃ record, w.router.reservations key = some record ∧ record.claim = c

def CommittedBy (key : UniqueReservationKey) (c : ClaimId) : Prop :=
  ∃ record, w.router.reservations key = some record ∧ record.claim = c ∧ record.state = .committed

/-- The proof may still tell that the write will not happen: no write is behind
it, or it has answered so and none is under way. -/
def Fenced (i : Nat) (c : ClaimId) (response : Option (List UniqueAcquireProof)) : Prop :=
  match response with
  | none => ∀ shard front back, w.inbox shard = front ++ .proof i :: back →
      .write c.mutationId ∉ back
  | some proofs => (∃ proof ∈ proofs, proof.claimId = c ∧ proof.acquire = none) →
      w.Unmade c.mutationId ∧ w.Unsent c.mutationId

end UniqueWorld

/-- What is over is not under way. -/
theorem UniqueWorld.not_active {w : UniqueWorld} (h : w.Done c ∨ w.Dead c.mutationId) :
    ¬w.Active c := by
  rintro (⟨hunmade, hsent⟩ | ⟨⟨owner, shard, owners, hmade, -⟩, halive⟩)
  · rcases h with ⟨⟨owner, shard, owners, hmade, -⟩, -⟩ | hdead
    · rw [hunmade shard] at hmade
      cases hmade
    · exact hsent hdead.2.2
  rcases h with ⟨-, hdeleted⟩ | hdead
  · rw [hdeleted] at halive
    cases halive
  · rw [hdead.2.1 shard] at hmade
    cases hmade

/-- No ordinal and no value twice, as `checkClaims` wants it. -/
def MutationPlan.Distinct (plan : MutationPlan) : Prop :=
  (plan.claims.map (·.claimOrdinal)).Nodup ∧ (plan.claims.map (·.key plan.graphId)).Nodup

/-- A mutation that was reserved, with the shard it goes to. -/
def UniqueWorld.GoesTo (w : UniqueWorld) (m : Nat) (shard : ProofShard) : Prop :=
  ∃ plan, w.plans m = some plan ∧ plan.Distinct ∧ plan.shard = shard

structure UniqueInv (w : UniqueWorld) : Prop where
  planned : ∀ m plan, w.plans m = some plan → m < w.router.nextMutationId
  recorded : ∀ clientKey record, w.router.records clientKey = some record →
    ∃ plan, w.plans record.mutationId = some plan ∧ plan.clientKey = clientKey
  indexed : ∀ m entry, w.router.index m = some entry →
    ∃ plan, w.plans m = some plan ∧ plan.clientKey = entry.clientKey
  entries : ∀ key record, w.router.reservations key = some record →
    w.Claims record.claim key ∧
      ∃ shard, record.proofScope = [shard] ∧ w.GoesTo record.claim.mutationId shard
  owners : ∀ key record owner, w.router.reservations key = some record →
    record.ownerElementId = some owner → w.MadeBy record.claim owner
  stamped : ∀ key record, w.router.reservations key = some record → record.state = .committed →
    ∃ owner, w.MadeBy record.claim owner
  sent : ∀ shard m, .write m ∈ w.inbox shard → w.GoesTo m shard
  journaled : ∀ shard m owners, w.journal shard m = some owners → w.GoesTo m shard
  known : ∀ c key owner, w.Claims c key → w.MadeBy c owner → owner ∈ w.elements
  distinct : ∀ c c' key key' owner, w.Claims c key → w.Claims c' key' → w.MadeBy c owner →
    w.MadeBy c' owner → c.mutationId = c'.mutationId
  pinned : ∀ shard c evidence, w.outbox shard c = some evidence →
    w.MadeBy c evidence.ownerElementId ∧ evidence.effectId = ⟨c.mutationId, c.claimOrdinal⟩
  /-- A mutation that may have an element has its values. -/
  holds : ∀ c key, w.Claims c key → w.Active c → w.HeldBy key c
  /-- An effect is gone only if the reservation is committed, or over. -/
  acked : ∀ c key shard owners, w.Claims c key → w.journal shard c.mutationId = some owners →
    w.outbox shard c = none → w.Done c ∨ w.CommittedBy key c
  acks : ∀ shard e key, .ack e ∈ w.inbox shard → w.Claims ⟨e.mutationId, e.effectOrdinal⟩ key →
    w.Done ⟨e.mutationId, e.effectOrdinal⟩ ∨ w.CommittedBy key ⟨e.mutationId, e.effectOrdinal⟩
  acksPlanned : ∀ shard e, .ack e ∈ w.inbox shard → ∃ plan, w.plans e.mutationId = some plan
  proofIndex : ∀ shard i, .proof i ∈ w.inbox shard →
    ∃ proof, w.proofs[i]? = some proof ∧ proof.target = shard
  evidence : ∀ read ∈ w.proofs, ∀ proofs, read.response = some proofs → ∀ proof ∈ proofs,
    ∀ evidence, proof.acquire = some evidence →
      w.MadeBy proof.claimId evidence.ownerElementId ∧
        evidence.effectId = ⟨proof.claimId.mutationId, proof.claimId.claimOrdinal⟩
  committed : ∀ read ∈ w.proofs, ∀ key c, read.purpose = .committed key c →
    w.Claims c key ∧ (∃ shard, w.GoesTo c.mutationId shard) ∧
      (w.Done c ∨ w.CommittedBy key c)
  /-- A ticket is over, or the claim still has the value; and if the ticket's
  generation is still the current one, nothing was sent behind the proof. -/
  tickets : ∀ i read key ticket, w.proofs[i]? = some read → read.purpose = .reclaim key ticket →
    w.Claims ticket.claim key ∧ w.GoesTo ticket.claim.mutationId read.target ∧
      (w.Done ticket.claim ∨ w.Dead ticket.claim.mutationId ∨
        ∃ record, w.router.reservations key = some record ∧ record.claim = ticket.claim ∧
          ticket.generation ≤ record.reclaimGeneration ∧
          (record.state = .reclaiming → record.reclaimGeneration = ticket.generation →
            w.Fenced i ticket.claim read.response))

/-! ## What the router's events have in common -/

/-- Where a message of a longer queue stands. -/
theorem split_append {α : Type} {xs more front back : List α} {x : α}
    (h : xs ++ more = front ++ x :: back) :
    (∃ back', xs = front ++ x :: back' ∧ back = back' ++ more) ∨
      ∃ front', more = front' ++ x :: back := by
  rcases List.append_eq_append_iff.mp h with ⟨as, rfl, hmore⟩ | ⟨bs, rfl, hback⟩
  · exact .inr ⟨as, hmore⟩
  cases bs with
  | nil => exact .inr ⟨[], by simpa using hback.symm⟩
  | cons b bs =>
    obtain ⟨rfl, rfl⟩ := List.cons.inj hback
    exact .inl ⟨bs, rfl, rfl⟩

/-- The claim keeps its entry.  It comes under reclaim only with a new
generation, and stays committed. -/
structure EntryKept (record record' : ReservationRecord) : Prop where
  claim : record'.claim = record.claim
  scope : record'.proofScope = record.proofScope
  generation : record.reclaimGeneration ≤ record'.reclaimGeneration
  reclaiming : record'.state = .reclaiming →
    (record.state = .reclaiming ∧ record'.reclaimGeneration = record.reclaimGeneration) ∨
      record.reclaimGeneration < record'.reclaimGeneration
  committed : record.state = .committed → record'.state = .committed

/-- A reservation that is not touched. -/
theorem EntryKept.refl (record : ReservationRecord) : EntryKept record record :=
  ⟨rfl, rfl, le_rfl, fun h => .inl ⟨h, rfl⟩, id⟩

/-- An entry of the new table: one that was there, or a new one of a claim. -/
def UniqueWorld.EntryFrom (w : UniqueWorld) (key : UniqueReservationKey)
    (record' : ReservationRecord) : Prop :=
  (∃ record, w.router.reservations key = some record ∧ record'.claim = record.claim ∧
    record'.proofScope = record.proofScope ∧
    ((record'.ownerElementId = record.ownerElementId ∧
        (record'.state = .committed → record.state = .committed)) ∨
      ∃ owner, record'.ownerElementId = some owner ∧ w.MadeBy record.claim owner)) ∨
  (record'.ownerElementId = none ∧ record'.state ≠ .committed ∧ w.Claims record'.claim key ∧
    ∃ shard, record'.proofScope = [shard] ∧ w.GoesTo record'.claim.mutationId shard)

/-- What may be sent to a shard, with the new world for what has to hold when
it is sent. -/
structure MaySend (w w' : UniqueWorld) (shard : ProofShard) (more : List ShardMessage) : Prop where
  write : ∀ m, .write m ∈ more → w.GoesTo m shard ∧ ¬w.NoDispatch m ∧
    ∀ c key, c.mutationId = m → w.Claims c key → ∃ record,
      w'.router.reservations key = some record ∧ record.claim = c ∧ record.state ≠ .reclaiming
  ack : ∀ e, .ack e ∈ more → ∀ key, w.Claims ⟨e.mutationId, e.effectOrdinal⟩ key →
    w.Done ⟨e.mutationId, e.effectOrdinal⟩ ∨ w'.CommittedBy key ⟨e.mutationId, e.effectOrdinal⟩
  planned : ∀ e, .ack e ∈ more → ∃ plan, w.plans e.mutationId = some plan
  proof : ∀ i, .proof i ∈ more → w.proofs.length ≤ i ∧
    (∃ read, w'.proofs[i]? = some read ∧ read.target = shard) ∧ ∀ m, .write m ∉ more

theorem MaySend.nil (w w' : UniqueWorld) (shard : ProofShard) : MaySend w w' shard [] :=
  ⟨by simp, by simp, by simp, by simp⟩

/-- A step of the router: the shards are not touched, messages go to the end of
their queues, and an entry is taken from a claim only if its mutation is done
or dead. -/
structure RouterStep (w w' : UniqueWorld) : Prop where
  plans : w'.plans = w.plans
  journal : w'.journal = w.journal
  outbox : w'.outbox = w.outbox
  elements : w'.elements = w.elements
  deleted : w'.deleted = w.deleted
  next : w'.router.nextMutationId = w.router.nextMutationId
  records : ∀ clientKey record', w'.router.records clientKey = some record' →
    ∃ record, w.router.records clientKey = some record ∧ record.mutationId = record'.mutationId ∧
      (record.terminalFailure.isSome → record'.terminalFailure.isSome)
  index : ∀ m entry, w'.router.index m = some entry →
    ∃ plan, w.plans m = some plan ∧ plan.clientKey = entry.clientKey
  kept : ∀ key record, w.router.reservations key = some record →
    (∃ record', w'.router.reservations key = some record' ∧ EntryKept record record') ∨
      w'.Done record.claim ∨ w'.Dead record.claim.mutationId
  entry : ∀ key record', w'.router.reservations key = some record' → w.EntryFrom key record'
  inbox : ∀ shard, ∃ more, w'.inbox shard = w.inbox shard ++ more ∧ MaySend w w' shard more
  proofs : ∃ more, w'.proofs = w.proofs ++ more ∧ ∀ read ∈ more, read.response = none ∧
    (∀ key ticket, read.purpose = .reclaim key ticket → ∃ record,
      w'.router.reservations key = some record ∧ record.claim = ticket.claim ∧
        record.reclaimGeneration = ticket.generation ∧ record.proofScope = [read.target]) ∧
    ∀ key c, read.purpose = .committed key c → w'.CommittedBy key c

namespace RouterStep

section

variable (h : RouterStep w w')

include h

/-- The router admits nothing in these steps: the claims are those of before. -/
theorem claims_iff :
    w'.Claims c key ↔ w.Claims c key := by
  simp only [Claims, h.plans]

theorem goesTo_iff : w'.GoesTo m shard ↔ w.GoesTo m shard := by
  simp only [GoesTo, h.plans]

/-- Nor does it write at a shard. -/
theorem madeBy_iff : w'.MadeBy c owner ↔ w.MadeBy c owner := by
  simp only [MadeBy, h.journal]

theorem unmade_iff : w'.Unmade m ↔ w.Unmade m := by
  simp only [Unmade, h.journal]

theorem done_iff : w'.Done c ↔ w.Done c := by
  simp only [Done, h.madeBy_iff, h.deleted]

/-- A closed gate stays closed. -/
theorem noDispatch (hm : w.NoDispatch m) : w'.NoDispatch m := by
  intro clientKey record' hrecord' hid
  obtain ⟨record, hrecord, hsame, hfailed⟩ := h.records clientKey record' hrecord'
  exact hfailed (hm clientKey record hrecord (hsame.trans hid))

/-- A message that is in a queue now was there, or is sent in this step. -/
theorem mem_inbox (hmem : message ∈ w'.inbox shard) :
    message ∈ w.inbox shard ∨ ∃ more, MaySend w w' shard more ∧ message ∈ more := by
  obtain ⟨more, hmore, hsend⟩ := h.inbox shard
  rw [hmore] at hmem
  exact (List.mem_append.mp hmem).imp_right fun hmem => ⟨more, hsend, hmem⟩

/-- A write that is on the way was so before, or was sent through an open gate
by a mutation that holds all its reservations. -/
theorem write_mem (hmem : .write m ∈ w'.inbox shard) :
    .write m ∈ w.inbox shard ∨ (w.GoesTo m shard ∧ ¬w.NoDispatch m ∧
      ∀ c key, c.mutationId = m → w.Claims c key → ∃ record,
        w'.router.reservations key = some record ∧ record.claim = c ∧
          record.state ≠ .reclaiming) :=
  (h.mem_inbox hmem).imp_right fun ⟨_, hsend, hmem⟩ => hsend.write m hmem

/-- Behind a closed gate nothing is sent. -/
theorem unsent (hm : w.Unsent m) (hgate : w.NoDispatch m) :
    w'.Unsent m := by
  intro shard hmem
  rcases h.write_mem hmem with hmem | ⟨-, hopen, -⟩
  · exact hm shard hmem
  · exact hopen hgate

/-- A mutation that can no longer happen still cannot. -/
theorem dead (hm : w.Dead m) : w'.Dead m :=
  ⟨h.noDispatch hm.1, h.unmade_iff.mpr hm.2.1, h.unsent hm.2.2 hm.1⟩

/-- Every reservation is claimed, in the scope of the shard that its mutation
goes to. -/
theorem entries (hinv : UniqueInv w) (hrecord' : w'.router.reservations key = some record') :
    w.Claims record'.claim key ∧
      ∃ shard, record'.proofScope = [shard] ∧ w.GoesTo record'.claim.mutationId shard := by
  rcases h.entry key record' hrecord' with
    ⟨record, hrecord, hclaim, hscope, -⟩ | ⟨-, -, hclaims, hscope⟩
  · rw [hclaim, hscope]
    exact hinv.entries key record hrecord
  · exact ⟨hclaims, hscope⟩

/-- A committed entry stays, until the element is deleted. -/
theorem committedBy (hinv : UniqueInv w) (hc : w.CommittedBy key c) :
    w'.Done c ∨ w'.CommittedBy key c := by
  obtain ⟨record, hrecord, rfl, hstate⟩ := hc
  rcases h.kept key record hrecord with ⟨record', hrecord', hkept⟩ | hdone | hdead
  · exact .inr ⟨record', hrecord', hkept.claim, hkept.committed hstate⟩
  · exact .inl hdone
  obtain ⟨owner, shard, owners, hmade, -⟩ := hinv.stamped key record hrecord hstate
  have := h.unmade_iff.mp hdead.2.1 shard
  rw [hmade] at this
  cases this

/-- A claim that is done or committed stays one or the other. -/
theorem settled (hinv : UniqueInv w) (hc : w.Done c ∨ w.CommittedBy key c) :
    w'.Done c ∨ w'.CommittedBy key c := by
  rcases hc with hdone | hcommitted
  · exact .inl (h.done_iff.mpr hdone)
  · exact h.committedBy hinv hcommitted

/-- A fence that is still up was not passed in this step. -/
theorem fenced {record' : ReservationRecord} (hi : i < w.proofs.length) (hclaims : w.Claims c key)
    (hrecord' : w'.router.reservations key = some record') (hstate' : record'.state = .reclaiming)
    (hfenced : w.Fenced i c response) : w'.Fenced i c response := by
  -- a write of the mutation would have found the value open
  have hnone : ∀ shard more, MaySend w w' shard more → .write c.mutationId ∉ more := by
    intro shard more hsend hmem
    obtain ⟨record, hrecord, -, hopen⟩ := (hsend.write _ hmem).2.2 c key rfl hclaims
    obtain rfl := Option.mem_unique hrecord hrecord'
    exact hopen hstate'
  cases response with
  | none =>
    intro shard front back hinbox
    obtain ⟨more, hmore, hsend⟩ := h.inbox shard
    rw [hmore] at hinbox
    rcases split_append hinbox with ⟨back', hback', rfl⟩ | ⟨front', hfront'⟩
    · intro hmem
      rcases List.mem_append.mp hmem with hmem | hmem
      · exact hfenced shard front back' hback' hmem
      · exact hnone shard more hsend hmem
    · have := (hsend.proof i (by rw [hfront']; simp)).1
      omega
  | some proofs =>
    intro habsent
    obtain ⟨hunmade, hunsent⟩ := hfenced habsent
    refine ⟨h.unmade_iff.mpr hunmade, fun shard hmem => ?_⟩
    rcases h.mem_inbox hmem with hmem | ⟨more, hsend, hmem⟩
    · exact hunsent shard hmem
    · exact hnone shard more hsend hmem

/-- Behind a proof that is sent in this step there is nothing. -/
theorem fenced_new (hinv : UniqueInv w) {i : Nat} (c : ClaimId) (hi : w.proofs.length ≤ i) :
    w'.Fenced i c none := by
  intro shard front back hinbox hmem
  obtain ⟨more, hmore, hsend⟩ := h.inbox shard
  rw [hmore] at hinbox
  rcases split_append hinbox with ⟨back', hback', -⟩ | ⟨front', hfront'⟩
  · obtain ⟨read, hread, -⟩ := hinv.proofIndex shard i (by rw [hback']; simp)
    have := (List.getElem?_eq_some_iff.mp hread).1
    omega
  · have hlast := (hsend.proof i (by rw [hfront']; simp)).2.2 c.mutationId
    rw [hfront'] at hlast
    simp [hmem] at hlast

end

end RouterStep

/-- A claim is for one value. -/
theorem UniqueWorld.Claims.unique {w : UniqueWorld} (hc : w.Claims c key) (hc' : w.Claims c key')
    (hm : w.GoesTo c.mutationId shard) : key = key' := by
  obtain ⟨plan, hplan, claim, hclaim, hid, rfl⟩ := hc
  obtain ⟨plan', hplan', claim', hclaim', hid', rfl⟩ := hc'
  obtain ⟨plan'', hplan'', hdistinct, -⟩ := hm
  obtain rfl := Option.mem_unique hplan hplan'
  obtain rfl := Option.mem_unique hplan hplan''
  have hordinal : claim.claimOrdinal = claim'.claimOrdinal := by
    have := hid.trans hid'.symm
    simpa [ReservationClaim.claimId] using this
  rw [List.inj_on_of_nodup_map hdistinct.1 hclaim hclaim' hordinal]

/-- The invariant is kept by every step of the router. -/
theorem UniqueInv.routerStep {w w' : UniqueWorld} (hinv : UniqueInv w) (h : RouterStep w w') :
    UniqueInv w' where
  planned := by
    rw [h.plans, h.next]
    exact hinv.planned
  recorded := by
    intro clientKey record' hrecord'
    obtain ⟨record, hrecord, hid, -⟩ := h.records clientKey record' hrecord'
    rw [h.plans, ← hid]
    exact hinv.recorded clientKey record hrecord
  indexed := by
    rw [h.plans]
    exact h.index
  entries := by
    intro key record' hrecord'
    simp only [h.claims_iff, h.goesTo_iff]
    exact h.entries hinv hrecord'
  owners := by
    intro key record' owner hrecord' howner
    rw [h.madeBy_iff]
    rcases h.entry key record' hrecord' with
      ⟨record, hrecord, hclaim, -, ⟨hsame, -⟩ | hmade⟩ | ⟨hnone, -⟩
    · rw [hclaim]
      exact hinv.owners key record owner hrecord (hsame ▸ howner)
    · obtain ⟨owner', howner', hmade⟩ := hmade
      obtain rfl := Option.mem_unique howner howner'
      rwa [hclaim]
    · rw [hnone] at howner
      cases howner
  stamped := by
    intro key record' hrecord' hstate'
    simp only [h.madeBy_iff]
    rcases h.entry key record' hrecord' with
      ⟨record, hrecord, hclaim, -, ⟨-, hstate⟩ | ⟨owner, -, hmade⟩⟩ | ⟨-, hopen, -⟩
    · rw [hclaim]
      exact hinv.stamped key record hrecord (hstate hstate')
    · rw [hclaim]
      exact ⟨owner, hmade⟩
    · exact absurd hstate' hopen
  sent := by
    intro shard m hmem
    rw [h.goesTo_iff]
    exact (h.write_mem hmem).elim (hinv.sent shard m) (·.1)
  journaled := by
    simp only [h.journal, h.goesTo_iff]
    exact hinv.journaled
  known := by
    simp only [h.claims_iff, h.madeBy_iff, h.elements]
    exact hinv.known
  distinct := by
    simp only [h.claims_iff, h.madeBy_iff]
    exact hinv.distinct
  pinned := by
    simp only [h.outbox, h.madeBy_iff]
    exact hinv.pinned
  holds := by
    intro c key hclaims hactive
    rw [h.claims_iff] at hclaims
    -- a write sent in this step has its values; one that was sent, or done, had them
    have hheld : w.Active c ∨ w'.HeldBy key c := by
      rcases hactive with ⟨hunmade, hsent⟩ | halive
      · obtain ⟨shard, hmem⟩ := not_forall_not.mp hsent
        rcases h.write_mem hmem with hmem | ⟨-, -, hvalues⟩
        · exact .inl (.inl ⟨h.unmade_iff.mp hunmade, fun hunsent => hunsent shard hmem⟩)
        · obtain ⟨record, hrecord, hclaim, -⟩ := hvalues c key rfl hclaims
          exact .inr ⟨record, hrecord, hclaim⟩
      · simp only [h.madeBy_iff, h.deleted] at halive
        exact .inl (.inr halive)
    rcases hheld with hactive' | hheld
    · obtain ⟨record, hrecord, rfl⟩ := hinv.holds c key hclaims hactive'
      rcases h.kept key record hrecord with ⟨record', hrecord', hkept⟩ | hover
      · exact ⟨record', hrecord', hkept.claim⟩
      · exact absurd hactive (not_active hover)
    · exact hheld
  acked := by
    intro c key shard owner hclaims hjournal houtbox
    rw [h.claims_iff] at hclaims
    rw [h.journal] at hjournal
    rw [h.outbox] at houtbox
    exact h.settled hinv (hinv.acked c key shard owner hclaims hjournal houtbox)
  acks := by
    intro shard e key hmem hclaims
    rw [h.claims_iff] at hclaims
    rcases h.mem_inbox hmem with hmem | ⟨more, hsend, hmem⟩
    · exact h.settled hinv (hinv.acks shard e key hmem hclaims)
    · rw [h.done_iff]
      exact hsend.ack e hmem key hclaims
  acksPlanned := by
    intro shard e hmem
    rw [h.plans]
    rcases h.mem_inbox hmem with hmem | ⟨more, hsend, hmem⟩
    · exact hinv.acksPlanned shard e hmem
    · exact hsend.planned e hmem
  proofIndex := by
    intro shard i hmem
    rcases h.mem_inbox hmem with hmem | ⟨more, hsend, hmem⟩
    · obtain ⟨reads, hreads, -⟩ := h.proofs
      obtain ⟨read, hread, htarget⟩ := hinv.proofIndex shard i hmem
      refine ⟨read, ?_, htarget⟩
      rw [hreads]
      exact List.getElem?_append_left (List.getElem?_eq_some_iff.mp hread).1 ▸ hread
    · exact (hsend.proof i hmem).2.1
  evidence := by
    intro read hread proofs hresponse proof hproof evidence hevidence
    rw [h.madeBy_iff]
    obtain ⟨reads, hreads, hnew⟩ := h.proofs
    rw [hreads] at hread
    rcases List.mem_append.mp hread with hread | hread
    · exact hinv.evidence read hread proofs hresponse proof hproof evidence hevidence
    · rw [(hnew read hread).1] at hresponse
      cases hresponse
  committed := by
    intro read hread key c hpurpose
    simp only [h.claims_iff, h.goesTo_iff]
    obtain ⟨reads, hreads, hnew⟩ := h.proofs
    rw [hreads] at hread
    rcases List.mem_append.mp hread with hread | hread
    · obtain ⟨hclaims, hgoes, hover⟩ := hinv.committed read hread key c hpurpose
      exact ⟨hclaims, hgoes, h.settled hinv hover⟩
    obtain ⟨record, hrecord, rfl, hstate⟩ := (hnew read hread).2.2 key c hpurpose
    obtain ⟨hclaims, shard, -, hgoes⟩ := h.entries hinv hrecord
    exact ⟨hclaims, ⟨shard, hgoes⟩, .inr ⟨record, hrecord, rfl, hstate⟩⟩
  tickets := by
    intro i read key ticket hread hpurpose
    simp only [h.claims_iff, h.goesTo_iff]
    obtain ⟨reads, hreads, hnew⟩ := h.proofs
    rw [hreads] at hread
    by_cases hi : i < w.proofs.length
    · rw [List.getElem?_append_left hi] at hread
      obtain ⟨hclaims, hgoes, hover⟩ := hinv.tickets i read key ticket hread hpurpose
      refine ⟨hclaims, hgoes, ?_⟩
      rcases hover with hdone | hdead | ⟨record, hrecord, hclaim, hle, hfenced⟩
      · exact .inl (h.done_iff.mpr hdone)
      · exact .inr (.inl (h.dead hdead))
      rcases h.kept key record hrecord with ⟨record', hrecord', hkept⟩ | hdone | hdead
      · refine .inr (.inr ⟨record', hrecord', hkept.claim.trans hclaim,
          hle.trans hkept.generation, fun hstate' hgen' => ?_⟩)
        rcases hkept.reclaiming hstate' with ⟨hstate, hsame⟩ | hlt
        · exact h.fenced hi hclaims hrecord' hstate' (hfenced hstate (hsame ▸ hgen'))
        · omega
      · exact .inl (hclaim ▸ hdone)
      · exact .inr (.inl (hclaim ▸ hdead))
    · rw [List.getElem?_append_right (not_lt.mp hi)] at hread
      obtain ⟨hresponse, hreclaim, -⟩ := hnew read (List.mem_of_getElem? hread)
      obtain ⟨record', hrecord', hclaim, hgen, hscope⟩ := hreclaim key ticket hpurpose
      obtain ⟨hclaims, shard, hshard, hgoes⟩ := h.entries hinv hrecord'
      obtain rfl : read.target = shard := by simpa [hscope] using hshard
      rw [hclaim] at hclaims hgoes
      refine ⟨hclaims, hgoes, .inr (.inr ⟨record', hrecord', hclaim, hgen.ge, fun _ _ => ?_⟩)⟩
      rw [hresponse]
      exact h.fenced_new hinv ticket.claim (not_lt.mp hi)

end Gleaph
