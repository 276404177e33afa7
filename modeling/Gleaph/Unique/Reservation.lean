import Gleaph.Panic

/-!
# Gleaph.Unique.Reservation

The router's reservation table for cross-shard uniqueness.

A constrained value is reserved before the write that sets it is sent, and the
entry goes through three states: `reserved` by a claim, `reclaiming` while a
proof reads whether the claim's write has happened, `committed` once it has.
The operations are fenced: a confirmation by the claim, the outcome of a proof
by the claim and the generation the proof was started under.

* `tryReserve_spec` — a successful try leaves every claim's value reserved or
  committed by that claim, and touches nothing else;
* the `_cases` lemmas — what each of the other operations does to its entry.
-/

namespace Gleaph

open Function List

/-- An entry of a changed table is the new one or an old one of another key. -/
theorem update_eq_some {α β : Type} [DecidableEq α] {table : α → Option β} {key key' : α}
    {entry : Option β} {found : β} : Function.update table key entry key' = some found ↔
      key' = key ∧ entry = some found ∨ key' ≠ key ∧ table key' = some found := by
  by_cases h : key' = key
  · simp [h]
  · simp [h]

/-- The longest canonical encoding of a constrained value. -/
def maxUniqueEncodedValueLen : Nat := 2048

structure UniqueReservationKey where
  graphId : Nat
  constraintId : Nat
  encodedValue : List UInt8
deriving DecidableEq

structure ProofShard where
  shardId : Nat
  graphCanister : Nat
deriving DecidableEq

structure ClaimId where
  mutationId : Nat
  claimOrdinal : Nat
deriving DecidableEq

structure EffectId where
  mutationId : Nat
  effectOrdinal : Nat
deriving DecidableEq

inductive ReservationState where
  | reserved
  | reclaiming
  | committed
deriving DecidableEq

structure ReservationRecord where
  claim : ClaimId
  state : ReservationState
  reclaimGeneration : Nat
  ownerElementId : Option (List UInt8)
  reservedAtNs : Nat
  proofScope : List ProofShard
  pendingAcquireAck : Option EffectId
deriving DecidableEq

structure ReservationClaim where
  constraintId : Nat
  encodedValue : List UInt8
  claimOrdinal : Nat
deriving DecidableEq

inductive UniqueError where
  | internal (message : String)
  | uniquenessViolation (message : String)
  | uniquenessReservationInFlight (message : String)
  | conflict (message : String)
  | shardNotRegistered
deriving DecidableEq

abbrev ReservationTable := UniqueReservationKey → Option ReservationRecord

/-! ## Scopes -/

def ProofShard.le (a b : ProofShard) : Bool :=
  a.shardId < b.shardId || (a.shardId == b.shardId && a.graphCanister ≤ b.graphCanister)

/-- Adjacent duplicates removed. -/
def dedupAdjacent : List ProofShard → List ProofShard
  | a :: b :: scope => if a = b then dedupAdjacent (b :: scope) else a :: dedupAdjacent (b :: scope)
  | scope => scope

def normalizedScope (scope : List ProofShard) : List ProofShard :=
  dedupAdjacent (scope.mergeSort ProofShard.le)

@[simp] theorem normalizedScope_singleton (shard : ProofShard) : normalizedScope [shard] = [shard] := by
  simp [normalizedScope, dedupAdjacent]

/-! ## Try -/

def ReservationClaim.key (graphId : Nat) (claim : ReservationClaim) : UniqueReservationKey :=
  ⟨graphId, claim.constraintId, claim.encodedValue⟩

def ReservationClaim.claimId (mutationId : Nat) (claim : ReservationClaim) : ClaimId :=
  ⟨mutationId, claim.claimOrdinal⟩

/-- The claims of one mutation have encodings within the bound, and neither a
value nor an ordinal twice. -/
def checkClaims (mutationId : Nat) :
    List (Nat × List UInt8) → List Nat → List ReservationClaim → Except UniqueError Unit
  | _, _, [] => .ok ()
  | seenValues, seenOrdinals, claim :: claims =>
    if maxUniqueEncodedValueLen < claim.encodedValue.length then
      .error (.internal (s!"encoded value for constraint {claim.constraintId} is " ++
        s!"{claim.encodedValue.length} bytes, exceeds MAX_UNIQUE_ENCODED_VALUE_LEN " ++
        s!"({maxUniqueEncodedValueLen})"))
    else if (claim.constraintId, claim.encodedValue) ∈ seenValues then
      .error (.uniquenessViolation (s!"mutation {mutationId} claims the same value twice " ++
        s!"for constraint {claim.constraintId}"))
    else if claim.claimOrdinal ∈ seenOrdinals then
      .error (.uniquenessViolation (s!"mutation {mutationId} reuses claim_ordinal " ++
        s!"{claim.claimOrdinal} across distinct values"))
    else checkClaims mutationId ((claim.constraintId, claim.encodedValue) :: seenValues)
      (claim.claimOrdinal :: seenOrdinals) claims

/-- Whether a claim is to be inserted; an entry of the claim itself stays as it
is.  A value under reclaim is closed to everyone. -/
def classifyClaim (graphId mutationId : Nat) (scope : List ProofShard) (table : ReservationTable)
    (claim : ReservationClaim) : Except UniqueError Bool :=
  match table (claim.key graphId) with
  | none => .ok true
  | some existing =>
    if existing.state = .reclaiming then
      .error (.uniquenessReservationInFlight (s!"value is being reclaimed for constraint " ++
        s!"{claim.constraintId}; retry after the proof resolves"))
    else if existing.claim = claim.claimId mutationId then
      if existing.proofScope ≠ scope then
        .error (.uniquenessViolation (s!"claim ({mutationId}, {claim.claimOrdinal}) replayed " ++
          s!"with a different shard scope for constraint {claim.constraintId}"))
      else .ok false
    else if existing.state = .committed then
      .error (.uniquenessViolation
        s!"value already committed for constraint {claim.constraintId}")
    else if existing.claim.mutationId = mutationId then
      .error (.uniquenessViolation (s!"mutation {mutationId} duplicates a value across claims " ++
        s!"for constraint {claim.constraintId}"))
    else
      .error (.uniquenessReservationInFlight (s!"value reserved by in-flight mutation " ++
        s!"{existing.claim.mutationId} for constraint {claim.constraintId}"))

/-- The claims to insert, or the first conflict. -/
def preflight (graphId mutationId : Nat) (scope : List ProofShard) (table : ReservationTable) :
    List ReservationClaim → Except UniqueError (List ReservationClaim)
  | [] => .ok []
  | claim :: claims => do
    let fresh ← classifyClaim graphId mutationId scope table claim
    let rest ← preflight graphId mutationId scope table claims
    .ok (if fresh then claim :: rest else rest)

def ReservationRecord.fresh (claim : ClaimId) (scope : List ProofShard) (nowNs : Nat) :
    ReservationRecord :=
  ⟨claim, .reserved, 0, none, nowNs, scope, none⟩

/-- Insert all of them. -/
def insertClaims (graphId mutationId : Nat) (scope : List ProofShard) (nowNs : Nat)
    (table : ReservationTable) (claims : List ReservationClaim) : ReservationTable :=
  claims.foldl (fun table claim => update table (claim.key graphId)
    (some (.fresh (claim.claimId mutationId) scope nowNs))) table

/-- Reserve all claims or none; the count is that of the new entries. -/
def tryReserve (graphId mutationId : Nat) (claims : List ReservationClaim)
    (proofScope : List ProofShard) (nowNs : Nat) (table : ReservationTable) :
    Except UniqueError (Nat × ReservationTable) := do
  checkClaims mutationId [] [] claims
  let scope := normalizedScope proofScope
  let fresh ← preflight graphId mutationId scope table claims
  .ok (fresh.length, insertClaims graphId mutationId scope nowNs table fresh)

/-! ### What a successful try does -/

/-- Claims that pass have distinct ordinals and distinct keys, and repeat
nothing that was seen before them. -/
theorem checkClaims_eq_ok (h : checkClaims mutationId seenValues seenOrdinals claims = .ok ())
    (graphId : Nat) :
    (claims.map (·.claimOrdinal)).Nodup ∧ (claims.map (·.key graphId)).Nodup ∧
      (∀ claim ∈ claims, (claim.constraintId, claim.encodedValue) ∉ seenValues) ∧
      ∀ claim ∈ claims, claim.claimOrdinal ∉ seenOrdinals := by
  induction claims generalizing seenValues seenOrdinals with
  | nil => simp
  | cons claim claims ih =>
    unfold checkClaims at h
    split at h
    · cases h
    split at h
    · cases h
    next hvalue =>
      split at h
      · cases h
      next hordinal =>
        obtain ⟨hnodup, hnodup', hseen, hordinals⟩ := ih h
        refine ⟨nodup_cons.mpr ⟨fun hmem => ?_, hnodup⟩,
          nodup_cons.mpr ⟨fun hmem => ?_, hnodup'⟩, ?_, ?_⟩
        · obtain ⟨other, hother, heq⟩ := mem_map.mp hmem
          exact hordinals other hother (by simp [heq])
        · obtain ⟨other, hother, heq⟩ := mem_map.mp hmem
          simp only [ReservationClaim.key, UniqueReservationKey.mk.injEq, true_and] at heq
          exact hseen other hother (by simp [heq])
        · intro other hother
          rcases mem_cons.mp hother with rfl | hother
          · exact hvalue
          · exact fun hmem => hseen other hother (mem_cons_of_mem _ hmem)
        · intro other hother
          rcases mem_cons.mp hother with rfl | hother
          · exact hordinal
          · exact fun hmem => hordinals other hother (mem_cons_of_mem _ hmem)

/-- A claim that passes finds no entry, or its own. -/
theorem classifyClaim_eq_ok (h : classifyClaim graphId mutationId scope table claim = .ok fresh) :
    (fresh = true ∧ table (claim.key graphId) = none) ∨
      (fresh = false ∧ ∃ record, table (claim.key graphId) = some record ∧
        record.claim = claim.claimId mutationId ∧ record.state ≠ .reclaiming ∧
        record.proofScope = scope) := by
  unfold classifyClaim at h
  split at h
  next hnone => exact .inl ⟨(Except.ok.inj h).symm, hnone⟩
  next record hsome =>
    split at h
    · cases h
    next hstate =>
      split at h
      next hclaim =>
        split at h
        · cases h
        next hscope =>
          exact .inr ⟨(Except.ok.inj h).symm, record, hsome, hclaim, hstate, not_not.mp hscope⟩
      · split at h
        · cases h
        · split at h <;> cases h

/-- The reservations of other keys are left alone. -/
theorem insertClaims_of_ne (h : ∀ claim ∈ claims, claim.key graphId ≠ key) :
    insertClaims graphId mutationId scope nowNs table claims key = table key := by
  induction claims generalizing table with
  | nil => rfl
  | cons claim claims ih =>
    have hhead : key ≠ claim.key graphId := (h claim (by simp)).symm
    exact (ih fun claim hclaim => h claim (by simp [hclaim])).trans (update_of_ne hhead ..)

/-- Each claim's key holds a fresh reservation of that claim; distinct keys keep
a later claim from replacing it. -/
theorem insertClaims_of_mem (hdistinct : (claims.map (·.key graphId)).Nodup)
    (hclaim : claim ∈ claims) :
    insertClaims graphId mutationId scope nowNs table claims (claim.key graphId) =
      some (.fresh (claim.claimId mutationId) scope nowNs) := by
  induction claims generalizing table with
  | nil => cases hclaim
  | cons head claims ih =>
    obtain ⟨hne, hdistinct⟩ := nodup_cons.mp hdistinct
    rcases mem_cons.mp hclaim with rfl | hclaim
    · have hne : ∀ other ∈ claims, other.key graphId ≠ claim.key graphId :=
        fun other hother heq => hne (mem_map.mpr ⟨other, hother, heq⟩)
      refine (insertClaims_of_ne hne).trans ?_
      exact update_self ..
    · exact ih hdistinct hclaim

/-- The preflight picks out the claims whose keys are free.  Every other key is
held by this very claim, under the same scope and not being reclaimed. -/
theorem preflight_eq_ok (h : preflight graphId mutationId scope table claims = .ok fresh) :
    fresh.Sublist claims ∧ (∀ claim ∈ fresh, table (claim.key graphId) = none) ∧
      ∀ claim ∈ claims, claim ∈ fresh ∨ ∃ record, table (claim.key graphId) = some record ∧
        record.claim = claim.claimId mutationId ∧ record.state ≠ .reclaiming ∧
        record.proofScope = scope := by
  induction claims generalizing fresh with
  | nil =>
    cases h
    simp
  | cons head claims ih =>
    obtain ⟨isFresh, hhead, h⟩ := bind_inv h
    obtain ⟨rest, hrest, h⟩ := bind_inv h
    cases h
    obtain ⟨hsublist, hnone, hclaims⟩ := ih hrest
    rcases classifyClaim_eq_ok hhead with ⟨rfl, hempty⟩ | ⟨rfl, hown⟩
    · refine ⟨hsublist.cons_cons head, ?_, ?_⟩
      · intro claim hclaim
        rcases mem_cons.mp hclaim with rfl | hclaim
        · exact hempty
        · exact hnone claim hclaim
      · intro claim hclaim
        rcases mem_cons.mp hclaim with rfl | hclaim
        · exact .inl (by simp)
        · exact (hclaims claim hclaim).imp_left (mem_cons_of_mem _)
    · refine ⟨hsublist.cons head, hnone, ?_⟩
      intro claim hclaim
      rcases mem_cons.mp hclaim with rfl | hclaim
      · exact .inr hown
      · exact hclaims claim hclaim

/-- A successful try is for distinct ordinals and values.  After it every claim has its
value, and is not under reclaim; an entry is as before, or is one of the claims' and was not there. -/
theorem tryReserve_spec
    (h : tryReserve graphId mutationId claims proofScope nowNs table = .ok (fresh, table')) :
    ((claims.map (·.claimOrdinal)).Nodup ∧ (claims.map (·.key graphId)).Nodup) ∧
    (∀ claim ∈ claims, ∃ record, table' (claim.key graphId) = some record ∧
      record.claim = claim.claimId mutationId ∧ record.state ≠ .reclaiming) ∧
    ∀ key, table' key = table key ∨
      (table key = none ∧ ∃ claim ∈ claims, key = claim.key graphId ∧
        table' key = some (.fresh (claim.claimId mutationId) (normalizedScope proofScope) nowNs)) := by
  obtain ⟨u, hcheck, h⟩ := bind_inv h
  obtain ⟨inserted, hpreflight, h⟩ := bind_inv h
  obtain ⟨-, rfl⟩ := Prod.mk.inj (Except.ok.inj h)
  obtain ⟨hsublist, hnone, hclaims⟩ := preflight_eq_ok hpreflight
  obtain ⟨hordinals, hdistinct, -⟩ := checkClaims_eq_ok hcheck graphId
  have hinserted : ∀ claim ∈ inserted, insertClaims graphId mutationId (normalizedScope proofScope)
      nowNs table inserted (claim.key graphId) =
        some (.fresh (claim.claimId mutationId) (normalizedScope proofScope) nowNs) :=
    fun claim hclaim => insertClaims_of_mem (hdistinct.sublist (hsublist.map _)) hclaim
  have hkey : ∀ key, insertClaims graphId mutationId (normalizedScope proofScope) nowNs table inserted
      key = table key ∨ (table key = none ∧ ∃ claim ∈ claims, key = claim.key graphId ∧
        insertClaims graphId mutationId (normalizedScope proofScope) nowNs table inserted key =
          some (.fresh (claim.claimId mutationId) (normalizedScope proofScope) nowNs)) := by
    intro key
    by_cases hmem : ∃ claim ∈ inserted, claim.key graphId = key
    · obtain ⟨claim, hclaim, rfl⟩ := hmem
      exact .inr ⟨hnone claim hclaim, claim, hsublist.subset hclaim, rfl, hinserted claim hclaim⟩
    · exact .inl (insertClaims_of_ne fun claim hclaim heq => hmem ⟨claim, hclaim, heq⟩)
  refine ⟨⟨hordinals, hdistinct⟩, fun claim hclaim => ?_, hkey⟩
  rcases hclaims claim hclaim with hfresh | ⟨record, hrecord, hown, hstate, -⟩
  · exact ⟨_, hinserted claim hfresh, rfl, by simp [ReservationRecord.fresh]⟩
  rcases hkey (claim.key graphId) with hsame | ⟨hempty, -⟩
  · exact ⟨record, hsame.trans hrecord, hown, hstate⟩
  · rw [hrecord] at hempty
    cases hempty

/-! ## Confirmation and release -/

inductive ConfirmOutcome where
  | freshlyCommitted
  | alreadyCommitted
  | notApplicable
deriving DecidableEq

/-- The write is proven: the claim's reservation becomes committed. -/
def confirmReservation (key : UniqueReservationKey) (claimId : ClaimId)
    (ownerElementId : List UInt8) (effectId : EffectId) (table : ReservationTable) :
    ConfirmOutcome × ReservationTable :=
  match table key with
  | none => (.notApplicable, table)
  | some record =>
    if record.claim ≠ claimId then (.notApplicable, table)
    else
      match record.state with
      | .committed => (.alreadyCommitted, table)
      | .reclaiming => (.notApplicable, table)
      | .reserved => (.freshlyCommitted, update table key (some
          { record with state := .committed, ownerElementId := some ownerElementId,
                        pendingAcquireAck := some effectId }))

/-- The proven effect is acknowledged. -/
def clearAcquireAck (key : UniqueReservationKey) (claimId : ClaimId) (table : ReservationTable) :
    Bool × ReservationTable :=
  match table key with
  | none => (false, table)
  | some record =>
    if record.claim ≠ claimId ∨ record.state ≠ .committed ∨ record.pendingAcquireAck = none then
      (false, table)
    else (true, update table key (some { record with pendingAcquireAck := none }))

inductive ReleaseOutcome where
  | applied
  | held
deriving DecidableEq

/-- The owner of a value was deleted.  The entry goes if it is committed for
this owner and its effect is acknowledged. -/
def releaseReservation (key : UniqueReservationKey) (ownerElementId : List UInt8)
    (table : ReservationTable) : ReleaseOutcome × ReservationTable :=
  match table key with
  | none => (.applied, table)
  | some record =>
    match record.state with
    | .reserved | .reclaiming => (.held, table)
    | .committed =>
      match record.ownerElementId with
      | none => (.held, table)
      | some owner =>
        if owner = ownerElementId then
          if record.pendingAcquireAck.isSome then (.held, table)
          else (.applied, update table key none)
        else (.applied, table)

/-! ## Reclaim -/

structure ReclaimTicket where
  claim : ClaimId
  generation : Nat
  proofScope : List ProofShard
deriving DecidableEq

section

variable (key : UniqueReservationKey)

/-- Start a proof under a new generation; the value is closed meanwhile. -/
def beginReclaim (table : ReservationTable) : Option (ReclaimTicket × ReservationTable) :=
  match table key with
  | none => none
  | some record =>
    if record.state ≠ .reserved ∨ 2 ^ 64 ≤ record.reclaimGeneration + 1 then none
    else
      some (⟨record.claim, record.reclaimGeneration + 1, record.proofScope⟩,
        update table key (some
          { record with reclaimGeneration := record.reclaimGeneration + 1, state := .reclaiming }))

/-- Take up a proof that was interrupted, under its generation. -/
def resumeReclaim (table : ReservationTable) : Option ReclaimTicket :=
  match table key with
  | none => none
  | some record =>
    if record.state ≠ .reclaiming then none
    else some ⟨record.claim, record.reclaimGeneration, record.proofScope⟩

variable (claimId : ClaimId) (g : Nat)

def isReclaimingAt (table : ReservationTable) : Bool :=
  match table key with
  | none => false
  | some record =>
    record.claim = claimId && record.state = .reclaiming && record.reclaimGeneration = g

/-- Change the entry under the fence of a proof. -/
def underFence (change : ReservationRecord → Option ReservationRecord) (table : ReservationTable) :
    Bool × ReservationTable :=
  match table key with
  | none => (false, table)
  | some record =>
    if isReclaimingAt key claimId g table then (true, update table key (change record))
    else (false, table)

/-- The proof found the write. -/
def applyReclaimCommit (ownerElementId : List UInt8) (effectId : EffectId)
    (table : ReservationTable) : Bool × ReservationTable :=
  underFence key claimId g (fun record => some
    { record with state := .committed, ownerElementId := some ownerElementId,
                  pendingAcquireAck := some effectId }) table

/-- The write has not happened and never will: the value is free. -/
def cancelReclaim (table : ReservationTable) : Bool × ReservationTable :=
  underFence key claimId g (fun _ => none) table

/-- Nothing is proven: the claim keeps the value, and the generation stays. -/
def holdReclaim (table : ReservationTable) : Bool × ReservationTable :=
  underFence key claimId g (fun record => some { record with state := .reserved }) table

end

/-! ### What they do to the entry -/

section

variable {key : UniqueReservationKey} {claimId : ClaimId}

/-- A call under a fence changes the record it names if that is reclaiming at
the call's generation, and nothing otherwise. -/
theorem underFence_cases (h : underFence key claimId g change table = (b, table')) :
    (b = false ∧ table' = table ∧ isReclaimingAt key claimId g table = false) ∨
      (b = true ∧ ∃ record, table key = some record ∧ record.claim = claimId ∧
        record.state = .reclaiming ∧ record.reclaimGeneration = g ∧
        table' = update table key (change record)) := by
  unfold underFence at h
  split at h
  next hnone =>
    cases h
    exact .inl ⟨rfl, rfl, by simp [isReclaimingAt, hnone]⟩
  next record hsome =>
    split at h
    next hfence =>
      cases h
      obtain ⟨hclaim, hstate, hgen⟩ := by simpa [isReclaimingAt, hsome, and_assoc] using hfence
      exact .inr ⟨rfl, record, hsome, hclaim, hstate, hgen, rfl⟩
    next hfence =>
      cases h
      exact .inl ⟨rfl, rfl, by simpa using hfence⟩

/-- A confirmation commits a reserved record of the claim, finds it committed,
or changes nothing. -/
theorem confirmReservation_cases
    (h : confirmReservation key claimId owner effectId table = (outcome, table')) :
    (outcome = .notApplicable ∧ table' = table) ∨
      ∃ record, table key = some record ∧ record.claim = claimId ∧
        ((outcome = .alreadyCommitted ∧ record.state = .committed ∧ table' = table) ∨
          (outcome = .freshlyCommitted ∧ record.state = .reserved ∧
            table' = update table key (some
              { record with state := .committed, ownerElementId := some owner,
                            pendingAcquireAck := some effectId }))) := by
  unfold confirmReservation at h
  split at h
  · cases h
    exact .inl ⟨rfl, rfl⟩
  next record hsome =>
    split at h
    · cases h
      exact .inl ⟨rfl, rfl⟩
    next hclaim =>
      have hclaim := not_not.mp hclaim
      split at h
      next hstate =>
        cases h
        exact .inr ⟨record, hsome, hclaim, .inl ⟨rfl, hstate, rfl⟩⟩
      next =>
        cases h
        exact .inl ⟨rfl, rfl⟩
      next hstate =>
        cases h
        exact .inr ⟨record, hsome, hclaim, .inr ⟨rfl, hstate, rfl⟩⟩

/-- Clearing the acknowledgement touches a committed record only. -/
theorem clearAcquireAck_cases (h : clearAcquireAck key claimId table = (b, table')) :
    table' = table ∨ ∃ record, table key = some record ∧ record.state = .committed ∧
      table' = update table key (some { record with pendingAcquireAck := none }) := by
  unfold clearAcquireAck at h
  split at h
  · exact .inl (Prod.mk.inj h).2.symm
  next record hsome =>
    split at h
    · exact .inl (Prod.mk.inj h).2.symm
    next hcond =>
      simp only [not_or, not_not] at hcond
      exact .inr ⟨record, hsome, hcond.2.1, (Prod.mk.inj h).2.symm⟩

/-- Only the owner of a committed record removes it. -/
theorem releaseReservation_cases (h : releaseReservation key owner table = (outcome, table')) :
    table' = table ∨ ∃ record, table key = some record ∧ record.state = .committed ∧
      record.ownerElementId = some owner ∧ table' = update table key none := by
  unfold releaseReservation at h
  split at h
  · exact .inl (Prod.mk.inj h).2.symm
  next record hsome =>
    split at h
    · exact .inl (Prod.mk.inj h).2.symm
    · exact .inl (Prod.mk.inj h).2.symm
    next hstate =>
      split at h
      · exact .inl (Prod.mk.inj h).2.symm
      next owner' howner =>
        split at h
        next hsame =>
          split at h
          · exact .inl (Prod.mk.inj h).2.symm
          · exact .inr ⟨record, hsome, hstate, hsame ▸ howner, (Prod.mk.inj h).2.symm⟩
        · exact .inl (Prod.mk.inj h).2.symm

/-- A reclaim begins at a reserved record and raises its generation, which
fences off the reclaims before it. -/
theorem beginReclaim_eq_some (h : beginReclaim key table = some (ticket, table')) :
    ∃ record, table key = some record ∧ record.state = .reserved ∧
      ticket = ⟨record.claim, record.reclaimGeneration + 1, record.proofScope⟩ ∧
      table' = update table key (some
        { record with reclaimGeneration := record.reclaimGeneration + 1, state := .reclaiming }) := by
  unfold beginReclaim at h
  split at h
  · cases h
  next record hsome =>
    split at h
    · cases h
    next hcond =>
      obtain ⟨rfl, rfl⟩ := Prod.mk.inj (Option.some.inj h)
      simp only [not_or, not_not] at hcond
      exact ⟨record, hsome, hcond.1, rfl, rfl⟩

end

end Gleaph
