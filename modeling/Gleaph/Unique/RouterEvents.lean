import Gleaph.Unique.Invariant

/-!
# Gleaph.Unique.RouterEvents

Each event of the router is a `RouterStep`, so it keeps the invariant: sending
proofs, confirming, reclaiming, acknowledging, releasing and dispatching.
Most keep all entries (`StoreKept`); a cancel takes one whose mutation is dead
(`UniqueInv.resolve_cancel`), a release one whose element is deleted
(`UniqueInv.release`).
-/

namespace Gleaph

open Function
section

variable (w : UniqueWorld) (router : RouterStore)

/-- The world after the router has changed its tables, noted reads and sent
messages to one shard. -/
def UniqueWorld.after (reads : List ProofRead) (shard : ProofShard) (more : List ShardMessage) :
    UniqueWorld :=
  { w with
    router
    proofs := w.proofs ++ reads
    inbox := update w.inbox shard (w.inbox shard ++ more) }

theorem UniqueWorld.send_eq_after (shard : ProofShard) (more : List ShardMessage) :
    ({ w with router } : UniqueWorld).send shard more = w.after router [] shard more := by
  simp [send, after]

theorem UniqueWorld.eq_after (shard : ProofShard) :
    ({ w with router } : UniqueWorld) = w.after router [] shard [] := by
  simp [after]

end

variable {router : RouterStore} {w : UniqueWorld} {c : ClaimId} {key : UniqueReservationKey}
  {proofs : List UniqueAcquireProof} {read : ProofRead} {ticket : ReclaimTicket}

/-- What holds of the reads that are noted, in the new world. -/
def ReadsNoted (w' : UniqueWorld) (reads : List ProofRead) : Prop :=
  ∀ read ∈ reads, read.response = none ∧
    (∀ key ticket, read.purpose = .reclaim key ticket → ∃ record,
      w'.router.reservations key = some record ∧ record.claim = ticket.claim ∧
        record.reclaimGeneration = ticket.generation ∧ record.proofScope = [read.target]) ∧
    ∀ key c, read.purpose = .committed key c → w'.CommittedBy key c

theorem ReadsNoted.nil (w' : UniqueWorld) : ReadsNoted w' [] := by simp [ReadsNoted]

/-- What the router's step has to show, beside its table. -/
theorem RouterStep.of_after (next : router.nextMutationId = w.router.nextMutationId)
    (records : ∀ clientKey record', router.records clientKey = some record' →
      ∃ record, w.router.records clientKey = some record ∧ record.mutationId = record'.mutationId ∧
        (record.terminalFailure.isSome → record'.terminalFailure.isSome))
    (index : ∀ m entry, router.index m = some entry →
      ∃ plan, w.plans m = some plan ∧ plan.clientKey = entry.clientKey)
    (kept : ∀ key record, w.router.reservations key = some record →
      (∃ record', router.reservations key = some record' ∧ EntryKept record record') ∨
        (w.after router reads shard more).Done record.claim ∨
          (w.after router reads shard more).Dead record.claim.mutationId)
    (entry : ∀ key record', router.reservations key = some record' → w.EntryFrom key record')
    (send : MaySend w (w.after router reads shard more) shard more)
    (proofs : ReadsNoted (w.after router reads shard more) reads) :
    RouterStep w (w.after router reads shard more) where
  plans := rfl
  journal := rfl
  outbox := rfl
  elements := rfl
  deleted := rfl
  next := next
  records := records
  index := index
  kept := kept
  entry := entry
  inbox := by
    intro shard'
    by_cases hshard : shard' = shard
    · subst hshard
      exact ⟨more, update_self .., send⟩
    refine ⟨[], ?_, .nil w _ shard'⟩
    rw [List.append_nil]
    exact update_of_ne hshard ..
  proofs := ⟨reads, rfl, proofs⟩

/-! ### Steps that take no entry away -/

/-- The tables change, but no entry goes and none is new. -/
structure StoreKept (w : UniqueWorld) (store store' : RouterStore) : Prop where
  next : store'.nextMutationId = store.nextMutationId
  records : store'.records = store.records
  index : ∀ m entry', store'.index m = some entry' →
    ∃ entry, store.index m = some entry ∧ entry.clientKey = entry'.clientKey
  kept : ∀ key record, store.reservations key = some record →
    ∃ record', store'.reservations key = some record' ∧ EntryKept record record'
  entry : ∀ key record', store'.reservations key = some record' → ∃ record,
    store.reservations key = some record ∧ record'.claim = record.claim ∧
      record'.proofScope = record.proofScope ∧
      ((record'.ownerElementId = record.ownerElementId ∧
          (record'.state = .committed → record.state = .committed)) ∨
        ∃ owner, record'.ownerElementId = some owner ∧ w.MadeBy record.claim owner)

theorem EntryKept.trans {a b c : ReservationRecord} (hab : EntryKept a b) (hbc : EntryKept b c) :
    EntryKept a c where
  claim := hbc.claim.trans hab.claim
  scope := hbc.scope.trans hab.scope
  generation := hab.generation.trans hbc.generation
  reclaiming := by
    intro hstate
    rcases hbc.reclaiming hstate with ⟨hstate, hgen⟩ | hlt
    · rcases hab.reclaiming hstate with ⟨hstate, hgen'⟩ | hlt
      · exact .inl ⟨hstate, hgen.trans hgen'⟩
      · exact .inr (hgen ▸ hlt)
    · exact .inr (hab.generation.trans_lt hlt)
  committed := fun hstate => hbc.committed (hab.committed hstate)

namespace StoreKept

variable {w : UniqueWorld} {store : RouterStore}

theorem refl (store : RouterStore) : StoreKept w store store where
  next := rfl
  records := rfl
  index := fun _ entry' h => ⟨entry', h, rfl⟩
  kept := fun _ record h => ⟨record, h, .refl record⟩
  entry := fun _ record' h => ⟨record', h, rfl, rfl, .inl ⟨rfl, id⟩⟩

theorem trans {store'' : RouterStore} (h : StoreKept w store store')
    (h' : StoreKept w store' store'') : StoreKept w store store'' where
  next := h'.next.trans h.next
  records := h'.records.trans h.records
  index := by
    intro m entry'' hentry''
    obtain ⟨entry', hentry', heq'⟩ := h'.index m entry'' hentry''
    obtain ⟨entry, hentry, heq⟩ := h.index m entry' hentry'
    exact ⟨entry, hentry, heq.trans heq'⟩
  kept := by
    intro key record hrecord
    obtain ⟨record', hrecord', hkept⟩ := h.kept key record hrecord
    obtain ⟨record'', hrecord'', hkept'⟩ := h'.kept key record' hrecord'
    exact ⟨record'', hrecord'', hkept.trans hkept'⟩
  entry := by
    intro key record'' hrecord''
    obtain ⟨record', hrecord', hclaim', hscope', howner'⟩ := h'.entry key record'' hrecord''
    obtain ⟨record, hrecord, hclaim, hscope, howner⟩ := h.entry key record' hrecord'
    refine ⟨record, hrecord, hclaim'.trans hclaim, hscope'.trans hscope, ?_⟩
    rcases howner' with ⟨hsame', hstate'⟩ | ⟨owner, howner', hmade⟩
    · rcases howner with ⟨hsame, hstate⟩ | ⟨owner, howner, hmade⟩
      · exact .inl ⟨hsame'.trans hsame, fun hcommitted => hstate (hstate' hcommitted)⟩
      · exact .inr ⟨owner, hsame'.trans howner, hmade⟩
    · exact .inr ⟨owner, howner', hclaim ▸ hmade⟩

/-- One entry changes. -/
theorem update (record' : ReservationRecord) (hrecord : store.reservations key = some record)
    (hkept : EntryKept record record') (howner : (record'.ownerElementId = record.ownerElementId ∧
        (record'.state = .committed → record.state = .committed)) ∨
      ∃ owner, record'.ownerElementId = some owner ∧ w.MadeBy record.claim owner) :
    StoreKept w store
      { store with reservations := update store.reservations key (some record') } where
  next := rfl
  records := rfl
  index := fun _ entry' h => ⟨entry', h, rfl⟩
  kept := by
    intro key' other hother
    by_cases hkey : key' = key
    · subst hkey
      obtain rfl := Option.mem_unique hrecord hother
      exact ⟨record', update_self .., hkept⟩
    · exact ⟨other, (update_of_ne hkey ..).trans hother, .refl other⟩
  entry := by
    intro key' other hother
    rcases update_eq_some.mp hother with ⟨rfl, ⟨⟩⟩ | ⟨-, hother⟩
    · exact ⟨record, hrecord, hkept.claim, hkept.scope, howner⟩
    · exact ⟨other, hother, rfl, rfl, .inl ⟨rfl, id⟩⟩

theorem releaseReservationSlot (h : store.releaseReservationSlot m = .ok store') :
    StoreKept w store store' := by
  unfold RouterStore.releaseReservationSlot at h
  split at h
  · cases h
  next entry hentry =>
    -- the row is gone, or is that of the same client
    have hindex : ∀ row, (∀ entry', row = some entry' → entry.clientKey = entry'.clientKey) →
        StoreKept w store { store with index := Function.update store.index m row } := by
      intro row hrow
      refine ⟨rfl, rfl, fun m' entry' hentry' => ?_, fun _ record h => ⟨record, h, .refl record⟩,
        fun _ record' h => ⟨record', h, rfl, rfl, .inl ⟨rfl, id⟩⟩⟩
      rcases update_eq_some.mp hentry' with ⟨rfl, hnew⟩ | ⟨-, hentry'⟩
      · exact ⟨entry, hentry, hrow entry' hnew⟩
      · exact ⟨entry', hentry', rfl⟩
    split at h
    · cases h
    split at h
    · cases h
      exact hindex none (by simp)
    · cases h
      exact hindex _ (by rintro _ ⟨⟩; rfl)

/-- A step that keeps all entries, with what it sends and notes. -/
theorem routerStep (h : StoreKept w w.router router) (hinv : UniqueInv w)
    (send : MaySend w (w.after router reads shard more) shard more)
    (proofs : ReadsNoted (w.after router reads shard more) reads) :
    RouterStep w (w.after router reads shard more) := by
  refine .of_after h.next ?_ ?_ (fun key record hrecord => .inl (h.kept key record hrecord)) ?_ send
    proofs
  · intro clientKey record' hrecord'
    rw [h.records] at hrecord'
    exact ⟨record', hrecord', rfl, id⟩
  · intro m entry' hentry'
    obtain ⟨entry, hentry, heq⟩ := h.index m entry' hentry'
    obtain ⟨plan, hplan, hkey⟩ := hinv.indexed m entry hentry
    exact ⟨plan, hplan, hkey.trans heq⟩
  · exact fun key record' hrecord' => .inl (h.entry key record' hrecord')

/-- The entry of a claim whose write was done is committed. -/
theorem commit {evidence : UniqueAcquireEvidence} (hmade : w.MadeBy c evidence.ownerElementId)
    (hrecord : store.reservations key = some record) (hclaim : record.claim = c)
    (hslot : { store with
      reservations := Function.update store.reservations key (some { record with
        state := .committed, ownerElementId := some evidence.ownerElementId,
        pendingAcquireAck := some evidence.effectId }) }.releaseReservationSlot m = .ok store') :
    StoreKept w store store' ∧ ∃ record, store'.reservations key = some record ∧
      record.claim = c ∧ record.state = .committed := by
  have hupdate := StoreKept.update (w := w) { record with
      state := .committed, ownerElementId := some evidence.ownerElementId,
      pendingAcquireAck := some evidence.effectId } hrecord
    ⟨rfl, rfl, le_rfl, by simp, by simp⟩ (.inr ⟨_, rfl, hclaim ▸ hmade⟩)
  have hrelease := StoreKept.releaseReservationSlot (w := w) hslot
  obtain ⟨final, hfinal, hkept⟩ := hrelease.kept key _ (Function.update_self ..)
  exact ⟨hupdate.trans hrelease, final, hfinal, hkept.claim.trans hclaim, hkept.committed rfl⟩

theorem confirmClaim {evidence : UniqueAcquireEvidence} (hmade : w.MadeBy c evidence.ownerElementId)
    (h : store.confirmClaim key c evidence = .ok (store', owned)) :
    StoreKept w store store' ∧ (owned = true → ∃ record, store'.reservations key = some record ∧
      record.claim = c ∧ record.state = .committed) := by
  unfold RouterStore.confirmClaim at h
  rcases hconfirm : confirmReservation key c evidence.ownerElementId evidence.effectId
      store.reservations with ⟨outcome, reservations⟩
  rw [hconfirm] at h
  rcases confirmReservation_cases hconfirm with ⟨rfl, rfl⟩ | ⟨record, hrecord, hclaim, hcases⟩
  · cases h
    exact ⟨.refl _, by simp⟩
  rcases hcases with ⟨rfl, hstate, rfl⟩ | ⟨rfl, hstate, rfl⟩
  · cases h
    exact ⟨.refl _, fun _ => ⟨record, hrecord, hclaim, hstate⟩⟩
  obtain ⟨final, hslot, h⟩ := map_eq_ok.mp h
  cases h
  exact (StoreKept.commit hmade hrecord hclaim hslot).imp_right fun hcommitted _ => hcommitted

/-- The effects to be acknowledged are those of claims that are committed
now. -/
theorem confirmProofs
    (hevidence : ∀ proof ∈ proofs, ∀ evidence, proof.acquire = some evidence →
      w.MadeBy proof.claimId evidence.ownerElementId ∧
        evidence.effectId = ⟨proof.claimId.mutationId, proof.claimId.claimOrdinal⟩)
    (h : UniqueWorld.confirmProofs plan m store proofs = .ok (store', acks)) :
    StoreKept w store store' ∧ ∀ e ∈ acks, ∃ key record, store'.reservations key = some record ∧
      record.claim = ⟨e.mutationId, e.effectOrdinal⟩ ∧ record.state = .committed := by
  induction proofs generalizing store acks with
  | nil =>
    cases h
    exact ⟨.refl _, by simp⟩
  | cons proof proofs ih =>
    have ih := fun {store acks} => @ih store acks fun other hother => hevidence other (by simp [hother])
    unfold UniqueWorld.confirmProofs at h
    split at h
    next evidence claim hacquire hfind =>
      obtain ⟨⟨mid, owned⟩, hclaim, h⟩ := bind_inv h
      obtain ⟨⟨final, rest⟩, hrest, h⟩ := bind_inv h
      cases h
      obtain ⟨hmade, heffect⟩ := hevidence proof (by simp) evidence hacquire
      obtain ⟨hkept, howned⟩ := StoreKept.confirmClaim hmade hclaim
      obtain ⟨hkept', hrest⟩ := ih hrest
      refine ⟨hkept.trans hkept', fun e he => ?_⟩
      have he : owned = true ∧ e = evidence.effectId ∨ e ∈ rest := by
        cases owned with
        | false => exact .inr he
        | true => exact (List.mem_cons.mp he).imp_left fun heq => ⟨rfl, heq⟩
      rcases he with ⟨hyes, rfl⟩ | he
      · obtain ⟨record, hrecord, hclaim, hstate⟩ := howned hyes
        obtain ⟨record', hrecord', hentry⟩ := hkept'.kept _ record hrecord
        refine ⟨_, record', hrecord', ?_, hentry.committed hstate⟩
        rw [hentry.claim, hclaim, heffect]
      · exact hrest e he
    next => exact ih h

/-- Nothing is resolved: the fence comes down. -/
theorem hold (store : RouterStore) (key : UniqueReservationKey) (c : ClaimId) (g : Nat) :
    StoreKept w store (store.holdUniqueReclaim key c g) := by
  unfold RouterStore.holdUniqueReclaim
  rcases hhold : holdReclaim key c g store.reservations with ⟨held, reservations⟩
  rcases underFence_cases hhold with ⟨-, rfl, -⟩ | ⟨-, record, hrecord, -, hstate, -, rfl⟩
  · exact .refl _
  · exact .update _ hrecord ⟨rfl, rfl, le_rfl, by simp, by simp [hstate]⟩ (.inl ⟨rfl, by simp⟩)

theorem clearAcquireAck (store : RouterStore) (key : UniqueReservationKey) (c : ClaimId) :
    StoreKept w store
      { store with reservations := (Gleaph.clearAcquireAck key c store.reservations).2 } := by
  rcases hclear : Gleaph.clearAcquireAck key c store.reservations with ⟨cleared, reservations⟩
  rcases clearAcquireAck_cases hclear with rfl | ⟨record, hrecord, hstate, rfl⟩
  · exact .refl _
  · exact .update _ hrecord ⟨rfl, rfl, le_rfl, by simp [hstate], id⟩ (.inl ⟨rfl, id⟩)

end StoreKept

/-- A value has one claim of a mutation. -/
theorem UniqueWorld.Claims.same (hc : w.Claims c key) (hc' : w.Claims c' key)
    (hm : w.GoesTo c.mutationId shard) (hsame : c.mutationId = c'.mutationId) : c = c' := by
  obtain ⟨plan, hplan, claim, hclaim, hid, rfl⟩ := hc
  obtain ⟨plan', hplan', claim', hclaim', hid', hkey⟩ := hc'
  obtain ⟨plan'', hplan'', hdistinct, -⟩ := hm
  rw [← hsame] at hplan' hid'
  obtain rfl := Option.mem_unique hplan hplan'
  obtain rfl := Option.mem_unique hplan hplan''
  rw [← hid, ← hid', List.inj_on_of_nodup_map hdistinct.2 hclaim hclaim' hkey.symm]

/-! ### Proofs and acknowledgements -/

namespace UniqueInv

variable (hinv : UniqueInv w)

include hinv

/-- Send one proof read, after a change that keeps all entries. -/
theorem sendProof (hstore : StoreKept w w.router router)
    (hreclaim : ∀ key ticket, purpose = .reclaim key ticket → ∃ record,
      router.reservations key = some record ∧ record.claim = ticket.claim ∧
        record.reclaimGeneration = ticket.generation ∧ record.proofScope = [target])
    (hcommitted : ∀ key c, purpose = .committed key c → ∃ record,
      router.reservations key = some record ∧ record.claim = c ∧ record.state = .committed) :
    UniqueInv (({ w with router } : UniqueWorld).sendProof purpose claims target) := by
  have hstep : RouterStep w (w.after router [⟨purpose, claims, target, none⟩] target
      [.proof w.proofs.length]) := by
    refine hstore.routerStep hinv ⟨by simp, by simp, by simp, ?_⟩ ?_
    · intro i hi
      obtain rfl : i = w.proofs.length := by simpa using hi
      refine ⟨le_rfl, ⟨⟨purpose, claims, target, none⟩, ?_, rfl⟩, by simp⟩
      simp [UniqueWorld.after]
    · intro read hread
      obtain rfl := List.mem_singleton.mp hread
      exact ⟨rfl, hreclaim, hcommitted⟩
  exact hinv.routerStep hstep

theorem sendReclaim (hstore : StoreKept w w.router router)
    (hrecord : router.reservations key = some record) (hclaim : record.claim = ticket.claim)
    (hgen : record.reclaimGeneration = ticket.generation)
    (hscope : record.proofScope = ticket.proofScope) :
    UniqueInv (({ w with router } : UniqueWorld).sendReclaim key ticket) := by
  unfold UniqueWorld.sendReclaim
  split
  next target htarget =>
    refine hinv.sendProof hstore ?_ (by simp)
    rintro _ _ ⟨⟩
    exact ⟨record, hrecord, hclaim, hgen, hscope.trans htarget⟩
  next =>
    rw [w.eq_after router ⟨0, 0⟩]
    exact hinv.routerStep (hstore.routerStep hinv (.nil ..) (.nil _))

/-- Acknowledgements of claims that are committed. -/
theorem maySend_acks {acks : List EffectId}
    (hacks : ∀ e ∈ acks, w.Done ⟨e.mutationId, e.effectOrdinal⟩ ∨ ∃ key,
      w.Claims ⟨e.mutationId, e.effectOrdinal⟩ key ∧ (∃ shard, w.GoesTo e.mutationId shard) ∧
        w'.CommittedBy key ⟨e.mutationId, e.effectOrdinal⟩) :
    MaySend w w' shard (acks.map .ack) := by
  have hmem : ∀ e, ShardMessage.ack e ∈ acks.map ShardMessage.ack → e ∈ acks := by simp
  refine ⟨by simp, fun e he key hclaims => ?_, fun e he => ?_, by simp⟩
  · rcases hacks e (hmem e he) with hdone | ⟨key', hclaims', ⟨_, hgoes⟩, hcommitted⟩
    · exact .inl hdone
    · obtain rfl := hclaims'.unique hclaims hgoes
      exact .inr hcommitted
  rcases hacks e (hmem e he) with
    ⟨⟨owner, shard', owners, hmade, -⟩, -⟩ | ⟨-, ⟨plan, hplan, -⟩, -⟩
  · obtain ⟨plan, hplan, -⟩ := hinv.journaled shard' _ owners hmade
    exact ⟨plan, hplan⟩
  · exact ⟨plan, hplan⟩

/-! ### Confirmation -/

/-- Acknowledge effects of claims that are committed now. -/
theorem sendAcks (hstore : StoreKept w w.router router) {acks : List EffectId}
    (hacks : ∀ e ∈ acks, ∃ key record, router.reservations key = some record ∧
      record.claim = ⟨e.mutationId, e.effectOrdinal⟩ ∧ record.state = .committed)
    (shard : ProofShard) :
    UniqueInv (({ w with router } : UniqueWorld).send shard (acks.map .ack)) := by
  rw [w.send_eq_after]
  refine hinv.routerStep (hstore.routerStep hinv (hinv.maySend_acks fun e he => ?_) (.nil _))
  obtain ⟨key, record, hrecord, hclaim, hstate⟩ := hacks e he
  obtain ⟨old, hold, hsame, -⟩ := hstore.entry key record hrecord
  obtain ⟨hclaims, shard, -, hgoes⟩ := hinv.entries key old hold
  rw [← hsame, hclaim] at hclaims hgoes
  exact .inr ⟨key, hclaims, ⟨shard, hgoes⟩, record, hrecord, hclaim, hstate⟩

theorem confirm (hread : read ∈ w.proofs) (hresponse : read.response = some proofs)
    {acks : List EffectId}
    (h : UniqueWorld.confirmProofs plan m w.router proofs = .ok (router, acks)) :
    UniqueInv (({ w with router } : UniqueWorld).send read.target (acks.map .ack)) := by
  obtain ⟨hstore, hacks⟩ := StoreKept.confirmProofs
    (fun proof hproof evidence => hinv.evidence read hread proofs hresponse proof hproof evidence) h
  exact hinv.sendAcks hstore hacks read.target

/-! ### Reclaim -/

theorem beginReclaim
    (h : Gleaph.beginReclaim key w.router.reservations = some (ticket, reservations)) :
    UniqueInv (({ w with router := { w.router with reservations } } : UniqueWorld).sendReclaim key
      ticket) := by
  obtain ⟨record, hrecord, hstate, rfl, rfl⟩ := beginReclaim_eq_some h
  have hstore := StoreKept.update (w := w) { record with
      reclaimGeneration := record.reclaimGeneration + 1, state := .reclaiming } hrecord
    ⟨rfl, rfl, Nat.le_succ _, fun _ => .inr (Nat.lt_succ_self _), by simp [hstate]⟩
    (.inl ⟨rfl, by simp⟩)
  exact hinv.sendReclaim hstore (update_self ..) rfl rfl rfl

theorem resumeReclaim
    (h : Gleaph.resumeReclaim key w.router.reservations = some ticket) :
    UniqueInv (w.sendReclaim key ticket) := by
  unfold Gleaph.resumeReclaim at h
  split at h
  · cases h
  split at h
  · cases h
  · cases h
    exact hinv.sendReclaim (.refl _) ‹_› rfl rfl rfl

/-- Nothing is sent. -/
theorem storeKept (hstore : StoreKept w w.router router) :
    UniqueInv ({ w with router } : UniqueWorld) := by
  rw [w.eq_after router ⟨0, 0⟩]
  exact hinv.routerStep (hstore.routerStep hinv (.nil ..) (.nil _))

/-- The value is taken away: the proof was sent when no write was behind it,
and its mutation is failed now. -/
theorem resolve_cancel {i : Nat} (hread : w.proofs[i]? = some read)
    (hpurpose : read.purpose = .reclaim key ticket) (hresponse : read.response = some proofs)
    (habsent : ∃ proof ∈ proofs, proof.claimId = ticket.claim ∧ proof.acquire = none)
    (h : w.router.reclaimCancelUncommitted key ticket.claim ticket.generation error =
      .ok (true, router)) : UniqueInv ({ w with router } : UniqueWorld) := by
  rcases RouterStore.reclaimCancelUncommitted_cases h with ⟨hfalse, -⟩ | ⟨-, entry, reserved, record,
    failed, hentry, hreserved, hclaim, hstate, hgen, hrecord, hid, hid', hfailed, hslot⟩
  · cases hfalse
  have hrelease := StoreKept.releaseReservationSlot (w := w) hslot
  -- the record that is failed is the only one of the mutation
  have hnoDispatch : ({ w with router } : UniqueWorld).NoDispatch ticket.claim.mutationId := by
    intro clientKey other hother hsame
    rw [hrelease.records] at hother
    rcases update_eq_some.mp hother with ⟨rfl, ⟨⟩⟩ | ⟨hkey, hother⟩
    · exact hfailed
    obtain ⟨plan, hplan, rfl⟩ := hinv.recorded clientKey other hother
    obtain ⟨plan', hplan', hclient⟩ := hinv.indexed _ entry hentry
    rw [hsame] at hplan
    obtain rfl := Option.mem_unique hplan hplan'
    exact absurd hclient hkey
  have hover : ({ w with router } : UniqueWorld).Done ticket.claim ∨
      ({ w with router } : UniqueWorld).Dead ticket.claim.mutationId := by
    obtain ⟨-, -, hdone | hdead | ⟨other, hother, -, -, hfenced⟩⟩ :=
      hinv.tickets i read key ticket hread hpurpose
    · exact .inl hdone
    · exact .inr ⟨hnoDispatch, hdead.2⟩
    obtain rfl := Option.mem_unique hreserved hother
    have hfenced := hfenced hstate hgen
    rw [hresponse] at hfenced
    exact .inr ⟨hnoDispatch, hfenced habsent⟩
  rw [w.eq_after router ⟨0, 0⟩] at hover ⊢
  refine hinv.routerStep (.of_after hrelease.next ?_ ?_ ?_ ?_ (.nil ..) (.nil _))
  · intro clientKey record' hrecord'
    rw [hrelease.records] at hrecord'
    rcases update_eq_some.mp hrecord' with ⟨rfl, ⟨⟩⟩ | ⟨-, hrecord'⟩
    · exact ⟨record, hrecord, hid.trans hid'.symm, fun _ => hfailed⟩
    · exact ⟨record', hrecord', rfl, id⟩
  · intro m row hrow
    obtain ⟨row', hrow', hsame⟩ := hrelease.index m row hrow
    obtain ⟨plan, hplan, hclient⟩ := hinv.indexed m row' hrow'
    exact ⟨plan, hplan, hclient.trans hsame⟩
  · intro key' other hother
    by_cases hkey : key' = key
    · subst hkey
      obtain rfl := Option.mem_unique hreserved hother
      exact .inr (hclaim ▸ hover)
    · exact .inl (hrelease.kept key' other ((update_of_ne hkey ..).trans hother))
  · intro key' other hother
    obtain ⟨old, hold, hentry⟩ := hrelease.entry key' other hother
    rcases update_eq_some.mp hold with ⟨-, ⟨⟩⟩ | ⟨-, hold⟩
    exact .inl ⟨old, hold, hentry⟩

theorem resolve {i : Nat} (hread : w.proofs[i]? = some read)
    (hpurpose : read.purpose = .reclaim key ticket) {ack : Option RouterStore.AckRequest}
    (h : w.router.resolveReclaim key ticket (classifyProofResponses ticket.claim
      (UniqueWorld.responses read lost)) = .ok (router, ack)) :
    UniqueInv (({ w with router } : UniqueWorld).sendAck read.target ack) := by
  have hkept : ∀ store, StoreKept w w.router store →
      UniqueInv (({ w with router := store } : UniqueWorld).sendAck read.target none) := by
    intro store hstore
    rw [UniqueWorld.sendAck, w.send_eq_after]
    exact hinv.routerStep (hstore.routerStep hinv (.nil ..) (.nil _))
  cases hverdict : classifyProofResponses ticket.claim (UniqueWorld.responses read lost) with
  | present evidence canister =>
    rw [hverdict] at h
    obtain ⟨proofs, proof, hresponse, hproof, hclaim, hacquire⟩ :=
      classify_singleton_present hverdict
    obtain ⟨-, hresponse⟩ := Option.ite_none_left_eq_some.mp hresponse
    obtain ⟨hmade, heffect⟩ := hinv.evidence read (List.mem_of_getElem? hread) proofs hresponse proof
      hproof evidence hacquire
    rw [hclaim] at hmade heffect
    simp only [RouterStore.resolveReclaim] at h
    split at h
    · cases h
      exact hkept _ (.refl _)
    next reservations hcommit =>
      obtain ⟨final, hslot, h⟩ := map_eq_ok.mp h
      cases h
      rcases underFence_cases hcommit with ⟨hfalse, -⟩ | ⟨-, record, hrecord, hclaim, -, -, rfl⟩
      · cases hfalse
      obtain ⟨hstore, hcommitted⟩ := StoreKept.commit hmade hrecord hclaim hslot
      refine @sendAcks _ _ hinv hstore [evidence.effectId] ?_ read.target
      simpa only [List.mem_singleton, forall_eq, heffect] using ⟨key, hcommitted⟩
  | allAbsent =>
    rw [hverdict] at h
    obtain ⟨⟨cancelled, store⟩, hcancel, h⟩ := bind_inv h
    cases cancelled with
    | true =>
      cases h
      obtain ⟨proofs, proof, hresponse, hproof, hclaim, hacquire⟩ :=
        classify_singleton_allAbsent hverdict
      obtain ⟨-, hresponse⟩ := Option.ite_none_left_eq_some.mp hresponse
      have hinv' := hinv.resolve_cancel hread hpurpose hresponse
        ⟨proof, hproof, hclaim, hacquire⟩ hcancel
      simpa [UniqueWorld.sendAck, UniqueWorld.send] using hinv'
    | false =>
      cases h
      rcases RouterStore.reclaimCancelUncommitted_cases hcancel with ⟨-, rfl⟩ | ⟨htrue, -⟩
      · exact hkept _ (.hold ..)
      · cases htrue
  | inconclusive =>
    rw [hverdict] at h
    cases h
    exact hkept _ (.hold ..)

/-! ### Acknowledgement and release -/

theorem resolveCommitted (hread : read ∈ w.proofs)
    (hpurpose : read.purpose = .committed key c) (lost : Bool) :
    let (router, ack) := w.router.resolveCommittedPending key c (classifyProofResponses c
      (UniqueWorld.responses read lost))
    UniqueInv (({ w with router } : UniqueWorld).sendAck read.target ack) := by
  cases hverdict : classifyProofResponses c (UniqueWorld.responses read lost) with
  | present evidence canister =>
    obtain ⟨proofs, proof, hresponse, hproof, hclaim, hacquire⟩ :=
      classify_singleton_present hverdict
    obtain ⟨-, hresponse⟩ := Option.ite_none_left_eq_some.mp hresponse
    have heffect := (hinv.evidence read hread proofs hresponse proof hproof evidence hacquire).2
    obtain ⟨hclaims, hgoes, hover⟩ := hinv.committed read hread key c hpurpose
    show UniqueInv (w.send read.target ([evidence.effectId].map .ack))
    rw [w.send_eq_after w.router]
    refine hinv.routerStep ((StoreKept.refl _).routerStep hinv (hinv.maySend_acks fun e he => ?_)
      (.nil _))
    obtain rfl := List.mem_singleton.mp he
    rw [heffect, hclaim]
    exact hover.imp_right fun hcommitted => ⟨key, hclaims, hgoes, hcommitted⟩
  | allAbsent =>
    have hinv' := hinv.storeKept (.clearAcquireAck w.router key c)
    simpa [RouterStore.resolveCommittedPending, UniqueWorld.sendAck, UniqueWorld.send] using hinv'
  | inconclusive =>
    simpa [RouterStore.resolveCommittedPending, UniqueWorld.sendAck, UniqueWorld.send] using hinv

/-- A value is released only from the deleted element. -/
theorem release (hclaims : w.Claims c key) (hmade : w.MadeBy c owner)
    (hdeleted : w.deleted c = true) : UniqueInv ({ w with router := { w.router with
      reservations := (releaseReservation key owner w.router.reservations).2 } } : UniqueWorld) := by
  rcases hrelease : releaseReservation key owner w.router.reservations with ⟨outcome, reservations⟩
  rcases releaseReservation_cases hrelease with rfl | ⟨record, hrecord, -, howner, rfl⟩
  · exact hinv
  obtain ⟨hclaims', shard, -, hgoes⟩ := hinv.entries key record hrecord
  have hsame := hinv.distinct _ _ key key owner hclaims' hclaims
    (hinv.owners key record owner hrecord howner) hmade
  obtain rfl := hclaims'.same hclaims hgoes hsame
  rw [w.eq_after _ ⟨0, 0⟩]
  refine hinv.routerStep (.of_after rfl (fun _ record' h => ⟨record', h, rfl, id⟩) hinv.indexed ?_ ?_
    (.nil ..) (.nil _))
  · intro key' other hother
    by_cases hkey : key' = key
    · subst hkey
      obtain rfl := Option.mem_unique hrecord hother
      exact .inr (.inl ⟨⟨owner, hmade⟩, hdeleted⟩)
    · exact .inl ⟨other, (update_of_ne hkey ..).trans hother, .refl other⟩
  · intro key' other hother
    rcases update_eq_some.mp hother with ⟨-, ⟨⟩⟩ | ⟨-, hother⟩
    exact .inl ⟨other, hother, rfl, rfl, .inl ⟨rfl, id⟩⟩

/-! ### Dispatch -/

/-- Reserve and send: the gate is open, so the mutation has a record that is
not failed, and every claim has its value. -/
theorem dispatch (hplan : w.plans m = some plan) (nowNs : Nat) :
    UniqueInv (w.dispatch m nowNs plan) := by
  unfold UniqueWorld.dispatch
  split
  · exact hinv
  · exact hinv
  next router htry =>
    unfold RouterStore.tryReserveUnique at htry
    split at htry
    · cases htry
    split at htry
    · cases htry
    next fresh reservations hreserve =>
    obtain ⟨final, hslots, htry⟩ := map_eq_ok.mp htry
    cases htry
    obtain ⟨index, rfl, hindex⟩ := RouterStore.applyReservationSlots_eq_ok hslots
    obtain ⟨hdistinct, hvalues, htable⟩ := tryReserve_spec hreserve
    rw [normalizedScope_singleton] at htable
    have hgoes : w.GoesTo m plan.shard := ⟨plan, hplan, hdistinct, rfl⟩
    have hstep : ∀ more, MaySend w (w.after { w.router with reservations, index } [] plan.shard more)
        plan.shard more →
        UniqueInv (w.after { w.router with reservations, index } [] plan.shard more) := by
      intro more hsend
      refine hinv.routerStep (.of_after rfl (fun _ record' h => ⟨record', h, rfl, id⟩) ?_ ?_ ?_ hsend
        (.nil _))
      · intro m' entry hentry
        rcases hindex m' entry hentry with hold | ⟨rfl, hclient⟩
        · exact hinv.indexed m' entry hold
        · exact ⟨plan, hplan, hclient.symm⟩
      · intro key record hrecord
        rcases htable key with hsame | ⟨hnone, -⟩
        · exact .inl ⟨record, hsame.trans hrecord, .refl record⟩
        · rw [hrecord] at hnone
          cases hnone
      intro key record' hrecord'
      rcases htable key with hsame | ⟨-, claim, hclaim, rfl, hnew⟩
      · exact .inl ⟨record', hsame.symm.trans hrecord', rfl, rfl, .inl ⟨rfl, id⟩⟩
      obtain rfl := Option.mem_unique hnew hrecord'
      exact .inr ⟨rfl, by simp [ReservationRecord.fresh], ⟨plan, hplan, claim, hclaim, rfl, rfl⟩,
        plan.shard, rfl, hgoes⟩
    split
    next hgate =>
      rw [w.send_eq_after]
      refine hstep _ ⟨?_, by simp, by simp, by simp⟩
      intro m' hm'
      obtain rfl : m' = m := by simpa using hm'
      obtain ⟨record, hrecord, hid, hopen⟩ := RouterStore.scalarDispatchGate_eq_dispatch hgate
      refine ⟨hgoes, fun hclosed => ?_, ?_⟩
      · have := hclosed plan.clientKey record hrecord hid
        simp [hopen] at this
      rintro c key rfl ⟨plan', hplan', claim, hclaim, hid', rfl⟩
      obtain rfl := Option.mem_unique hplan hplan'
      obtain ⟨reserved, hreserved, hown, hstate⟩ := hvalues claim hclaim
      exact ⟨reserved, hreserved, hown.trans hid', hstate⟩
    next =>
      rw [w.eq_after _ plan.shard]
      exact hstep [] (.nil ..)

/-! ### Records -/

/-- The records change; none is opened again. -/
theorem records {records : Nat → Option RouterMutationRecord}
    (h : ∀ clientKey record', records clientKey = some record' →
      ∃ record, w.router.records clientKey = some record ∧ record.mutationId = record'.mutationId ∧
        (record.terminalFailure.isSome → record'.terminalFailure.isSome)) :
    UniqueInv ({ w with router := { w.router with records } } : UniqueWorld) := by
  rw [w.eq_after _ ⟨0, 0⟩]
  exact hinv.routerStep (.of_after rfl h hinv.indexed
    (fun _ record h => .inl ⟨record, h, .refl record⟩)
    (fun _ record' h => .inl ⟨record', h, rfl, rfl, .inl ⟨rfl, id⟩⟩) (.nil ..) (.nil _))

theorem updateRecord (m : Nat) (hchange : ∀ record, (change record).mutationId = record.mutationId) :
    UniqueInv (w.updateRecord m change) := by
  unfold UniqueWorld.updateRecord
  split
  · exact hinv
  next plan hplan =>
    split
    · exact hinv
    next record hrecord =>
      split
      · exact hinv
      next hopen =>
        simp only [not_or] at hopen
        refine hinv.records fun clientKey record' hrecord' => ?_
        rcases update_eq_some.mp hrecord' with ⟨rfl, ⟨⟩⟩ | ⟨-, hrecord'⟩
        · exact ⟨record, hrecord, (hchange record).symm, fun hfailed => absurd hfailed hopen.2⟩
        · exact ⟨record', hrecord', rfl, id⟩

theorem expire (clientKey : Nat) :
    UniqueInv ({ w with router := { w.router with
      records := update w.router.records clientKey none } } : UniqueWorld) := by
  refine hinv.records fun clientKey' record' hrecord' => ?_
  rcases update_eq_some.mp hrecord' with ⟨-, ⟨⟩⟩ | ⟨-, hrecord'⟩
  exact ⟨record', hrecord', rfl, id⟩

end UniqueInv

end Gleaph
