import Gleaph.Unique.Protocol

/-!
# Gleaph.Unique.Slots

The reverse index of reservations: for each mutation, how many of its
reservations are still open (`Reserved` or `Reclaiming`).  A mutation record
with open reservations is pinned against collection.

The count is kept by the operations that open and close reservations:

* a try counts the entries it inserts (`tryReserveUnique_exact`);
* a confirmation, a reclaim commit and a cancel take one slot back
  (`releaseReservationSlot_exact`);
* holding, starting a proof, releasing a committed value and purging a dropped
  constraint leave the open reservations as they are.

The teardown of a graph removes its reservations whatever their state and does
not touch the index, so the count stays exact only if the graph has no open
reservation then.
-/

namespace Gleaph

open Function

namespace RouterStore

/-! ## Purges -/

def isClean (record : ReservationRecord) : Bool :=
  record.state = .committed && record.pendingAcquireAck = none

variable (store : RouterStore)

/-- One page of `purge_constraint_reservations`: clean committed entries go,
reserved ones get a proof.  `page` has the keys that the range scan of the
constraint yields. -/
def purgeConstraintReservations (page : List UniqueReservationKey) : RouterStore :=
  let toRemove := page.filter fun key => (store.reservations key).any isClean
  let toKick := page.filter fun key => (store.reservations key).any (·.state = .reserved)
  let removed := toRemove.foldl (fun table key => update table key none)
    store.reservations
  { store with
    reservations := toKick.foldl (fun table key => ((beginReclaim key table).map (·.2)).getD table)
      removed }

/-- `purge_graph_reservations`, called by the teardown of a graph. -/
def purgeGraphReservations (graphId : Nat) : RouterStore :=
  { store with
    reservations := fun key => if key.graphId = graphId then none else store.reservations key }

/-! ## The pin -/

/-- `reservation_slot_count_raw` -/
def reservationSlotCount (mutationId : Nat) : Nat :=
  (store.index mutationId).elim 0 (·.nonterminal)

/-- `reservation_slot_pinned_raw` -/
def reservationSlotPinned (mutationId : Nat) : Bool :=
  0 < store.reservationSlotCount mutationId

/-- The collection of an expired record: not while it is pinned.  The row of
the index goes with it. -/
def collectRecord (clientKey : Nat) : RouterStore :=
  match store.records clientKey with
  | none => store
  | some record =>
    if store.reservationSlotPinned record.mutationId then store
    else
      { store with
        records := update store.records clientKey none
        index := update store.index record.mutationId none }

end RouterStore

/-! ## Runs -/

/-- The messages that touch reservations or the index. -/
inductive SlotEvent where
  | tryReserve (clientKey graphId mutationId : Nat) (claims : List ReservationClaim)
      (dispatches : List ProofShard) (nowNs : Nat)
  | confirm (plan : MutationPlan) (mutationId : Nat) (proofs : List UniqueAcquireProof)
  | beginReclaim (key : UniqueReservationKey)
  | resolveReclaim (key : UniqueReservationKey) (ticket : ReclaimTicket) (verdict : ProofVerdict)
  | hold (key : UniqueReservationKey) (claimId : ClaimId) (generation : Nat)
  | clearAck (key : UniqueReservationKey) (claimId : ClaimId)
  | release (key : UniqueReservationKey) (ownerElementId : List UInt8)
  | purgeConstraint (page : List UniqueReservationKey)
  | teardown (graphId : Nat)
  | collect (clientKey : Nat)
  /-- The rest of the router, which writes mutation records. -/
  | setRecord (clientKey : Nat) (record : Option RouterMutationRecord)

namespace RouterStore

/-- The outcome of a message; an error is a trap. -/
def handle (store : RouterStore) : SlotEvent → Except String RouterStore
  | .tryReserve clientKey graphId mutationId claims dispatches nowNs =>
    (store.tryReserveUnique clientKey graphId mutationId claims dispatches nowNs).map fun
      | .ok store => store
      | .error _ => store
  | .confirm plan mutationId proofs => (UniqueWorld.confirmProofs plan mutationId store proofs).map (·.1)
  | .beginReclaim key =>
    .ok { store with
      reservations := ((Gleaph.beginReclaim key store.reservations).map (·.2)).getD
        store.reservations }
  | .resolveReclaim key ticket verdict => (store.resolveReclaim key ticket verdict).map (·.1)
  | .hold key claimId generation => .ok (store.holdUniqueReclaim key claimId generation)
  | .clearAck key claimId =>
    .ok { store with reservations := (clearAcquireAck key claimId store.reservations).2 }
  | .release key owner =>
    .ok { store with reservations := (releaseReservation key owner store.reservations).2 }
  | .purgeConstraint page => .ok (store.purgeConstraintReservations page)
  | .teardown graphId => .ok (store.purgeGraphReservations graphId)
  | .collect clientKey => .ok (store.collectRecord clientKey)
  | .setRecord clientKey record =>
    .ok { store with records := update store.records clientKey record }

/-- A trap rolls its message back. -/
def step (store : RouterStore) (event : SlotEvent) : RouterStore :=
  match store.handle event with
  | .ok store => store
  | .error _ => store

def fresh : RouterStore := ⟨fun _ => none, fun _ => none, fun _ => none, 0⟩

end RouterStore

/-! ## Open reservations -/

/-- An entry of a mutation that is `Reserved` or `Reclaiming`. -/
def IsOpen (mutationId : Nat) (entry : Option ReservationRecord) : Prop :=
  ∃ record, entry = some record ∧ record.claim.mutationId = mutationId ∧ record.state ≠ .committed

def openKeys (table : ReservationTable) (mutationId : Nat) : Set UniqueReservationKey :=
  { key | IsOpen mutationId (table key) }

/-- The index counts the open reservations of every mutation, and has a row
for those that have one. -/
structure SlotsExact (store : RouterStore) : Prop where
  finite : ∀ m, (openKeys store.reservations m).Finite
  count : ∀ m, store.reservationSlotCount m = (openKeys store.reservations m).ncard
  positive : ∀ m entry, store.index m = some entry → entry.nonterminal ≠ 0

theorem isOpen_none : ¬ IsOpen m none := by
  rintro ⟨record, h, -⟩
  cases h

theorem isOpen_some :
    IsOpen m (some record) ↔ record.claim.mutationId = m ∧ record.state ≠ .committed := by
  simp [IsOpen]

theorem committed_not_isOpen (h : record.state = .committed) (m : Nat) :
    ¬ IsOpen m (some record) := by
  simp [isOpen_some, h]

open RouterStore

/-- Only the open entries matter. -/
theorem SlotsExact.of_openKeys_eq (h : SlotsExact store) (hindex : store'.index = store.index)
    (hkeys : ∀ m, openKeys store'.reservations m = openKeys store.reservations m) :
    SlotsExact store' := by
  refine ⟨fun m => ?_, fun m => ?_, fun m entry hentry => ?_⟩
  · rw [hkeys]
    exact h.finite m
  · rw [hkeys, ← h.count, reservationSlotCount, hindex]
    rfl
  · exact h.positive m entry (hindex ▸ hentry)

/-- An entry changed into one that is open for the same mutations. -/
theorem openKeys_update_of_iff (h : ∀ m, IsOpen m entry ↔ IsOpen m (table key)) (m : Nat) :
    openKeys (update table key entry) m = openKeys table m := by
  ext other
  by_cases hkey : other = key
  · subst hkey
    simp [openKeys, h m]
  · simp [openKeys, update_of_ne hkey]

/-! ## Closing a reservation -/

section Closing

theorem releaseReservationSlot_eq {store : RouterStore} (hentry : store.index m = some entry)
    (hpositive : entry.nonterminal ≠ 0) :
    store.releaseReservationSlot m = .ok { store with
      index := update store.index m
        (if entry.nonterminal = 1 then none
          else some { entry with nonterminal := entry.nonterminal - 1 }) } := by
  rw [releaseReservationSlot, hentry]
  by_cases hone : entry.nonterminal = 1
  · simp [hone]
  · simp [hone, hpositive]

/-- Taking back the slot of an open reservation that has just been closed does
not trap, and the count is exact again. -/
theorem releaseReservationSlot_exact {store : RouterStore} (h : SlotsExact store)
    (hrecord : store.reservations key = some record) (hopen : record.state ≠ .committed)
    (hentry : ∀ m, ¬ IsOpen m entry) (records : Nat → Option RouterMutationRecord) :
    ∃ store', ({ store with records, reservations := update store.reservations key entry } :
        RouterStore).releaseReservationSlot record.claim.mutationId = .ok store' ∧
      SlotsExact store' := by
  have hmem : key ∈ openKeys store.reservations record.claim.mutationId :=
    ⟨record, hrecord, rfl, hopen⟩
  have hcard := Set.ncard_sdiff_singleton_add_one hmem (h.finite _)
  have hcount := h.count record.claim.mutationId
  -- The mutation has an open reservation, so it has a row.
  obtain ⟨row, hrow⟩ : ∃ row, store.index record.claim.mutationId = some row := by
    rw [← Option.ne_none_iff_exists']
    intro hnone
    rw [reservationSlotCount, hnone, Option.elim_none] at hcount
    omega
  rw [reservationSlotCount, hrow, Option.elim_some] at hcount
  refine ⟨_, releaseReservationSlot_eq hrow (h.positive _ _ hrow), ?_⟩
  have hkeys : ∀ m, openKeys (update store.reservations key entry) m =
      openKeys store.reservations m \ {key} := by
    intro m
    ext other
    by_cases hkey : other = key
    · subst hkey
      simp [openKeys, hentry m]
    · simp [openKeys, hkey]
  refine ⟨fun m => ?_, fun m => ?_, fun m changed hchanged => ?_⟩
  · rw [hkeys]
    exact (h.finite m).sdiff
  · rw [hkeys]
    by_cases hm : m = record.claim.mutationId
    · subst hm
      simp only [reservationSlotCount, update_self]
      split_ifs with hone
      · rw [Option.elim_none]
        omega
      rw [Option.elim_some]
      show row.nonterminal - 1 = _
      omega
    · have hnot : key ∉ openKeys store.reservations m := by
        rintro ⟨other, hother, hclaim, -⟩
        obtain rfl := Option.mem_unique hrecord hother
        exact hm hclaim.symm
      rw [Set.sdiff_singleton_eq_self hnot, ← h.count m]
      simp only [reservationSlotCount, update_of_ne hm]
  · rcases update_eq_some.mp hchanged with ⟨-, hnew⟩ | ⟨-, hchanged⟩
    · have hpositive := h.positive _ _ hrow
      split_ifs at hnew with hone
      cases hnew
      show row.nonterminal - 1 ≠ 0
      omega
    · exact h.positive m changed hchanged

end Closing

/-! ## Opening reservations -/

section Opening

/-- A try opens as many new entries as it says, for its own mutation. -/
theorem openKeys_tryReserve {fresh : Nat}
    (h : tryReserve graphId mutationId claims proofScope nowNs table = .ok (fresh, table')) :
    ∃ keys : Finset UniqueReservationKey, keys.card = fresh ∧ (∀ key ∈ keys, table key = none) ∧
      openKeys table' mutationId = openKeys table mutationId ∪ keys ∧
      ∀ m, m ≠ mutationId → openKeys table' m = openKeys table m := by
  obtain ⟨u, hcheck, h⟩ := bind_inv h
  obtain ⟨inserted, hpreflight, h⟩ := bind_inv h
  cases h
  obtain ⟨hsublist, hnone, -⟩ := preflight_eq_ok hpreflight
  obtain ⟨-, hdistinct, -⟩ := checkClaims_eq_ok hcheck graphId
  have hnodup : (inserted.map (·.key graphId)).Nodup := hdistinct.sublist (hsublist.map _)
  refine ⟨(inserted.map (·.key graphId)).toFinset, ?_, ?_, ?_, ?_⟩
  · rw [List.toFinset_card_of_nodup hnodup, List.length_map]
  · intro key hkey
    obtain ⟨claim, hclaim, rfl⟩ := List.mem_map.mp (List.mem_toFinset.mp hkey)
    exact hnone claim hclaim
  · ext key
    rw [Set.mem_union, Finset.mem_coe, List.mem_toFinset]
    by_cases hkey : key ∈ inserted.map (·.key graphId)
    · obtain ⟨claim, hclaim, rfl⟩ := List.mem_map.mp hkey
      simp only [hkey, or_true, iff_true]
      show IsOpen _ _
      rw [insertClaims_of_mem hnodup hclaim, isOpen_some]
      exact ⟨rfl, by simp [ReservationRecord.fresh]⟩
    · simp only [hkey, or_false]
      show IsOpen _ _ ↔ IsOpen _ _
      rw [insertClaims_of_ne fun claim hclaim heq => hkey (List.mem_map.mpr ⟨claim, hclaim, heq⟩)]
  · intro m hm
    ext key
    show IsOpen _ _ ↔ IsOpen _ _
    by_cases hkey : key ∈ inserted.map (·.key graphId)
    · obtain ⟨claim, hclaim, rfl⟩ := List.mem_map.mp hkey
      rw [insertClaims_of_mem hnodup hclaim, hnone claim hclaim, isOpen_some]
      exact ⟨fun hopen => absurd hopen.1.symm hm, fun hopen => absurd hopen isOpen_none⟩
    · rw [insertClaims_of_ne fun claim hclaim heq => hkey (List.mem_map.mpr ⟨claim, hclaim, heq⟩)]

/-- The count goes up by the new entries. -/
theorem applyReservationSlots_count {store store' : RouterStore} {fresh : Nat}
    (h : store.applyReservationSlots mutationId clientKey fresh = .ok store')
    (hpositive : ∀ m entry, store.index m = some entry → entry.nonterminal ≠ 0) :
    store'.reservations = store.reservations ∧
      store'.reservationSlotCount mutationId = store.reservationSlotCount mutationId + fresh ∧
      (∀ m, m ≠ mutationId → store'.reservationSlotCount m = store.reservationSlotCount m) ∧
      ∀ m entry, store'.index m = some entry → entry.nonterminal ≠ 0 := by
  have hrow : ∀ count, count ≠ 0 → ∀ m entry,
      update store.index mutationId (some ⟨clientKey, count⟩) m = some entry →
        entry.nonterminal ≠ 0 := by
    intro count hcount m entry hentry
    rcases update_eq_some.mp hentry with ⟨-, ⟨⟩⟩ | ⟨-, hentry⟩
    · exact hcount
    · exact hpositive m entry hentry
  have hother : ∀ count m, m ≠ mutationId →
      ({ store with index := update store.index mutationId (some ⟨clientKey, count⟩) } :
        RouterStore).reservationSlotCount m = store.reservationSlotCount m := by
    intro count m hm
    simp only [reservationSlotCount, update_of_ne hm]
  unfold applyReservationSlots at h
  split at h
  next hzero =>
    cases h
    exact ⟨rfl, by simp [hzero], fun _ _ => rfl, hpositive⟩
  next hfresh =>
    split at h
    next hnone =>
      cases h
      exact ⟨rfl, by simp [reservationSlotCount, hnone], hother fresh, hrow fresh hfresh⟩
    next entry hsome =>
      split at h
      · cases h
      split at h
      · cases h
      · cases h
        exact ⟨rfl, by simp [reservationSlotCount, hsome], hother _, hrow _ (by omega)⟩

theorem tryReserveUnique_exact {store store' : RouterStore} (h : SlotsExact store)
    (htry : store.tryReserveUnique clientKey graphId mutationId claims dispatches nowNs =
      .ok (.ok store')) : SlotsExact store' := by
  unfold tryReserveUnique at htry
  split at htry
  · cases htry
  split at htry
  · cases htry
  next fresh reservations hreserve =>
    obtain ⟨final, hslots, htry⟩ := map_eq_ok.mp htry
    cases htry
    obtain ⟨keys, hcard, hnone, hown, hothers⟩ := openKeys_tryReserve hreserve
    obtain ⟨hres, hcount, hsame, hpositive⟩ := applyReservationSlots_count hslots h.positive
    have hdisjoint : Disjoint (openKeys store.reservations mutationId) keys := by
      rw [Set.disjoint_left]
      intro key hkey hmem
      have hentry : IsOpen mutationId (store.reservations key) := hkey
      rw [hnone key hmem] at hentry
      exact isOpen_none hentry
    refine ⟨fun m => ?_, fun m => ?_, hpositive⟩
    · rw [hres]
      by_cases hm : m = mutationId
      · subst hm
        rw [hown]
        exact (h.finite m).union keys.finite_toSet
      · rw [hothers m hm]
        exact h.finite m
    · rw [hres]
      by_cases hm : m = mutationId
      · subst hm
        rw [hcount, hown, Set.ncard_union_eq hdisjoint (h.finite m) keys.finite_toSet,
          Set.ncard_coe_finset, hcard, ← h.count m]
        rfl
      · rw [hsame m hm, hothers m hm, ← h.count m]
        rfl

end Opening

/-! ## Every message keeps the count -/

section Steps

theorem openKeys_beginReclaim (key : UniqueReservationKey) (table : ReservationTable) (m : Nat) :
    openKeys (((beginReclaim key table).map (·.2)).getD table) m = openKeys table m := by
  cases hbegin : beginReclaim key table with
  | none => rfl
  | some started =>
    obtain ⟨ticket, table'⟩ := started
    obtain ⟨record, hrecord, hstate, -, rfl⟩ := beginReclaim_eq_some hbegin
    refine openKeys_update_of_iff (fun m => ?_) m
    simp [hrecord, isOpen_some, hstate]

/-- A committed entry may go. -/
theorem openKeys_update_none (hrecord : table key = some record)
    (hstate : record.state = .committed) (m : Nat) :
    openKeys (update table key none) m = openKeys table m := by
  refine openKeys_update_of_iff (fun m => ?_) m
  simp [hrecord, isOpen_some, hstate, isOpen_none]

/-- The removals of a page: every key is clean when its turn comes, or gone. -/
theorem openKeys_removeClean {keys : List UniqueReservationKey}
    (h : ∀ key ∈ keys, ∀ record, table key = some record → record.state = .committed) (m : Nat) :
    openKeys (keys.foldl (fun table key => update table key none) table) m =
      openKeys table m := by
  induction keys generalizing table with
  | nil => rfl
  | cons key keys ih =>
    rw [List.foldl_cons, ih]
    · cases hentry : table key with
      | none => rw [update_eq_self_iff.mpr hentry.symm]
      | some record => exact openKeys_update_none hentry (h key (by simp) record hentry) m
    · intro other hother record hrecord
      rcases update_eq_some.mp hrecord with ⟨-, ⟨⟩⟩ | ⟨-, hrecord⟩
      exact h other (by simp [hother]) record hrecord

section

variable (h : SlotsExact store)

include h

theorem purgeConstraintReservations_exact (page : List UniqueReservationKey) :
    SlotsExact (store.purgeConstraintReservations page) := by
  refine h.of_openKeys_eq rfl fun m => ?_
  have hkick : ∀ (keys : List UniqueReservationKey) (table : ReservationTable),
      openKeys (keys.foldl (fun table key => ((beginReclaim key table).map (·.2)).getD table)
        table) m = openKeys table m := by
    intro keys
    induction keys with
    | nil => exact fun _ => rfl
    | cons key keys ih =>
      intro table
      rw [List.foldl_cons, ih, openKeys_beginReclaim]
  refine (hkick _ _).trans (openKeys_removeClean (fun key hkey record hrecord => ?_) m)
  have hclean := (List.mem_filter.mp hkey).2
  rw [hrecord, Option.any_some, isClean, Bool.and_eq_true] at hclean
  exact of_decide_eq_true hclean.1

/-- A confirmation does not trap. -/
theorem confirmClaim_exact (key : UniqueReservationKey) (claimId : ClaimId)
    (evidence : UniqueAcquireEvidence) :
    ∃ store' owned, store.confirmClaim key claimId evidence = .ok (store', owned) ∧
      SlotsExact store' := by
  unfold confirmClaim
  cases hconfirm : confirmReservation key claimId evidence.ownerElementId evidence.effectId
      store.reservations with
  | mk outcome reservations =>
    rcases confirmReservation_cases hconfirm with ⟨rfl, rfl⟩ |
      ⟨record, hrecord, rfl, ⟨rfl, -, rfl⟩ | ⟨rfl, hstate, rfl⟩⟩
    · exact ⟨store, false, rfl, h⟩
    · exact ⟨store, true, rfl, h⟩
    have hclosed : ∀ m, ¬ IsOpen m (some { record with
        state := .committed, ownerElementId := some evidence.ownerElementId,
        pendingAcquireAck := some evidence.effectId }) := committed_not_isOpen rfl
    obtain ⟨store', hrelease, hexact⟩ := releaseReservationSlot_exact h hrecord
      (by simp [hstate]) hclosed store.records
    dsimp only
    rw [hrelease]
    exact ⟨store', true, rfl, hexact⟩

theorem confirmProofs_exact (plan : MutationPlan) (mutationId : Nat)
    (proofs : List UniqueAcquireProof) :
    ∃ store' acks, UniqueWorld.confirmProofs plan mutationId store proofs = .ok (store', acks) ∧
      SlotsExact store' := by
  induction proofs generalizing store with
  | nil => exact ⟨store, [], rfl, h⟩
  | cons proof proofs ih =>
    unfold UniqueWorld.confirmProofs
    split
    next evidence claim hacquire hfind =>
      obtain ⟨confirmed, owned, hconfirm, hexact⟩ :=
        confirmClaim_exact h (claim.key plan.graphId) proof.claimId evidence
      obtain ⟨store', acks, hrest, hexact⟩ := ih hexact
      rw [hconfirm, ok_bind]
      dsimp only
      rw [hrest, ok_bind]
      exact ⟨store', _, rfl, hexact⟩
    next => exact ih h

theorem holdUniqueReclaim_exact (key : UniqueReservationKey) (claimId : ClaimId) (generation : Nat) :
    SlotsExact (store.holdUniqueReclaim key claimId generation) := by
  refine h.of_openKeys_eq rfl fun m => ?_
  rcases underFence_cases (show holdReclaim key claimId generation store.reservations = (_, _)
    from rfl) with ⟨-, heq, -⟩ | ⟨-, record, hrecord, -, hstate, -, heq⟩
  · exact congrArg (openKeys · m) heq
  · refine (congrArg (openKeys · m) heq).trans (openKeys_update_of_iff (fun m => ?_) m)
    simp [hrecord, isOpen_some, hstate]

/-- A cancel does not trap: what it preflights, it can apply. -/
theorem reclaimCancelUncommitted_exact (key : UniqueReservationKey) (claimId : ClaimId)
    (generation : Nat) (error : String) :
    ∃ cancelled store', store.reclaimCancelUncommitted key claimId generation error =
      .ok (cancelled, store') ∧ SlotsExact store' := by
  unfold reclaimCancelUncommitted
  split
  · exact ⟨false, store, rfl, h⟩
  next entry hentry =>
    split
    · exact ⟨false, store, rfl, h⟩
    next hfence =>
      split
      · exact ⟨false, store, rfl, h⟩
      next failedStore hfail =>
        obtain ⟨-, failed, -, -, -, -, rfl⟩ := terminallyFail_eq_true hfail
        cases hcancel : cancelReclaim key claimId generation store.reservations with
        | mk removed reservations =>
          rcases underFence_cases hcancel with ⟨-, -, hnot⟩ |
            ⟨rfl, record, hrecord, rfl, hstate, -, rfl⟩
          · simp [hnot] at hfence
          obtain ⟨store', hrelease, hexact⟩ := releaseReservationSlot_exact h hrecord
            (by simp [hstate]) (fun _ => isOpen_none)
            (update store.records entry.clientKey (some failed))
          refine ⟨true, store', ?_, hexact⟩
          dsimp only
          rw [hrelease]
          rfl

/-- Applying the verdict of a proof does not trap, whatever the verdict. -/
theorem resolveReclaim_exact (key : UniqueReservationKey) (ticket : ReclaimTicket)
    (verdict : ProofVerdict) :
    ∃ store' ack, store.resolveReclaim key ticket verdict = .ok (store', ack) ∧
      SlotsExact store' := by
  cases verdict with
  | present evidence target =>
    unfold resolveReclaim
    dsimp only
    cases hcommit : applyReclaimCommit key ticket.claim ticket.generation evidence.ownerElementId
        evidence.effectId store.reservations with
    | mk applied reservations =>
      rcases underFence_cases hcommit with ⟨rfl, -, -⟩ |
        ⟨rfl, record, hrecord, hclaim, hstate, -, rfl⟩
      · exact ⟨store, none, rfl, h⟩
      have hclosed : ∀ m, ¬ IsOpen m (some { record with
          state := .committed, ownerElementId := some evidence.ownerElementId,
          pendingAcquireAck := some evidence.effectId }) := committed_not_isOpen rfl
      obtain ⟨store', hrelease, hexact⟩ := releaseReservationSlot_exact h hrecord
        (by simp [hstate]) hclosed store.records
      dsimp only
      rw [← hclaim, hrelease]
      exact ⟨store', _, rfl, hexact⟩
  | allAbsent =>
    obtain ⟨cancelled, store', hcancel, hexact⟩ := reclaimCancelUncommitted_exact h key ticket.claim
      ticket.generation (reclaimError ticket.claim.mutationId)
    unfold resolveReclaim
    dsimp only
    rw [hcancel, ok_bind]
    cases cancelled with
    | true => exact ⟨store', none, rfl, hexact⟩
    | false => exact ⟨_, none, rfl, holdUniqueReclaim_exact hexact key _ _⟩
  | inconclusive => exact ⟨_, none, rfl, holdUniqueReclaim_exact h key _ _⟩

/-- A record that is not pinned has no row that could go with it. -/
theorem collectRecord_exact (clientKey : Nat) :
    SlotsExact (store.collectRecord clientKey) := by
  unfold collectRecord
  split
  · exact h
  next record hrecord =>
    split
    · exact h
    next hpinned =>
      have hnone : store.index record.mutationId = none := by
        cases hindex : store.index record.mutationId with
        | none => rfl
        | some entry =>
          have hpositive := h.positive _ _ hindex
          rw [reservationSlotPinned, reservationSlotCount, hindex, Option.elim_some] at hpinned
          simp only [decide_eq_true_eq] at hpinned
          omega
      refine h.of_openKeys_eq ?_ fun _ => rfl
      exact update_eq_self_iff.mpr hnone.symm

end

end Steps

/-! ## Runs -/

/-- A graph is torn down only when none of its reservations is open. -/
def TeardownQuiet (store : RouterStore) : SlotEvent → Prop
  | .teardown graphId => ∀ key record, store.reservations key = some record →
      key.graphId = graphId → record.state = .committed
  | _ => True

/-- A message leaves the count exact; only a try can trap, on a mutation that
belongs to another client. -/
theorem handle_exact (h : SlotsExact store) (hquiet : TeardownQuiet store event) :
    (∃ store', store.handle event = .ok store' ∧ SlotsExact store') ∨
      ∃ clientKey graphId mutationId claims dispatches nowNs trap,
        event = .tryReserve clientKey graphId mutationId claims dispatches nowNs ∧
        store.handle event = .error trap := by
  cases event with
  | tryReserve clientKey graphId mutationId claims dispatches nowNs =>
    cases htry : store.tryReserveUnique clientKey graphId mutationId claims dispatches nowNs with
    | error trap =>
      exact .inr ⟨clientKey, graphId, mutationId, claims, dispatches, nowNs, trap, rfl, by
        rw [handle, htry]
        rfl⟩
    | ok result =>
      refine .inl ?_
      rw [handle, htry]
      cases result with
      | error e => exact ⟨store, rfl, h⟩
      | ok store' => exact ⟨store', rfl, tryReserveUnique_exact h htry⟩
  | confirm plan mutationId proofs =>
    obtain ⟨store', acks, hconfirm, hexact⟩ := confirmProofs_exact h plan mutationId proofs
    exact .inl ⟨store', by rw [handle, hconfirm]; rfl, hexact⟩
  | beginReclaim key =>
    exact .inl ⟨_, rfl, h.of_openKeys_eq rfl fun m =>
      openKeys_beginReclaim key store.reservations m⟩
  | resolveReclaim key ticket verdict =>
    obtain ⟨store', ack, hresolve, hexact⟩ := resolveReclaim_exact h key ticket verdict
    exact .inl ⟨store', by rw [handle, hresolve]; rfl, hexact⟩
  | hold key claimId generation => exact .inl ⟨_, rfl, holdUniqueReclaim_exact h key _ _⟩
  | clearAck key claimId =>
    refine .inl ⟨_, rfl, h.of_openKeys_eq rfl fun m => ?_⟩
    rcases clearAcquireAck_cases (show clearAcquireAck key claimId store.reservations = (_, _)
      from rfl) with heq | ⟨record, hrecord, hstate, heq⟩
    · exact congrArg (openKeys · m) heq
    · refine (congrArg (openKeys · m) heq).trans (openKeys_update_of_iff (fun m => ?_) m)
      simp [hrecord, isOpen_some, hstate]
  | release key owner =>
    refine .inl ⟨_, rfl, h.of_openKeys_eq rfl fun m => ?_⟩
    rcases releaseReservation_cases (show releaseReservation key owner store.reservations = (_, _)
      from rfl) with heq | ⟨record, hrecord, hstate, -, heq⟩
    · exact congrArg (openKeys · m) heq
    · exact (congrArg (openKeys · m) heq).trans (openKeys_update_none hrecord hstate m)
  | purgeConstraint page => exact .inl ⟨_, rfl, purgeConstraintReservations_exact h page⟩
  | teardown graphId =>
    refine .inl ⟨_, rfl, h.of_openKeys_eq rfl fun m => ?_⟩
    ext key
    show IsOpen m (if key.graphId = graphId then none else _) ↔ IsOpen m _
    split_ifs with hgraph
    · refine iff_of_false isOpen_none ?_
      rintro ⟨record, hrecord, -, hopen⟩
      exact hopen (hquiet key record hrecord hgraph)
    · rfl
  | collect clientKey => exact .inl ⟨_, rfl, collectRecord_exact h clientKey⟩
  | setRecord clientKey record => exact .inl ⟨_, rfl, h.of_openKeys_eq rfl fun _ => rfl⟩

theorem step_exact (store : RouterStore) (event : SlotEvent) (h : SlotsExact store)
    (hquiet : TeardownQuiet store event) : SlotsExact (store.step event) := by
  unfold step
  rcases handle_exact h hquiet with ⟨store', hhandle, hexact⟩ | ⟨_, _, _, _, _, _, trap, -, htrap⟩
  · rw [hhandle]
    exact hexact
  · rw [htrap]
    exact h

theorem fresh_exact : SlotsExact .fresh := by
  have hempty : ∀ m, openKeys fresh.reservations m = ∅ :=
    fun m => Set.eq_empty_of_forall_notMem fun key hkey => isOpen_none hkey
  refine ⟨fun m => ?_, fun m => ?_, fun m entry hentry => ?_⟩
  · rw [hempty]
    exact Set.finite_empty
  · rw [hempty, Set.ncard_empty]
    rfl
  · cases hentry

/-- In every state of a run the index counts the open reservations of each
mutation, and has a row exactly for those that have one; so a mutation whose
last reservation is gone is not pinned, and no message but a try traps. -/
theorem reservationSlots_exact {events : List SlotEvent}
    (hrun : AllSteps step TeardownQuiet .fresh events) :
    (∀ m, (openKeys (events.foldl step .fresh).reservations m).Finite ∧
      (events.foldl step .fresh).reservationSlotCount m =
        (openKeys (events.foldl step .fresh).reservations m).ncard ∧
      ((events.foldl step .fresh).index m = none ↔
        openKeys (events.foldl step .fresh).reservations m = ∅) ∧
      ((events.foldl step .fresh).reservationSlotPinned m = true ↔
        (openKeys (events.foldl step .fresh).reservations m).Nonempty)) ∧
    ∀ event, TeardownQuiet (events.foldl step .fresh) event →
      (∀ clientKey graphId mutationId claims dispatches nowNs,
        event ≠ .tryReserve clientKey graphId mutationId claims dispatches nowNs) →
      ∃ store', (events.foldl step .fresh).handle event = .ok store' := by
  have hexact : SlotsExact (events.foldl step .fresh) :=
    foldl_invariant step_exact fresh_exact hrun
  generalize events.foldl step .fresh = store at hexact
  refine ⟨fun m => ?_, fun event hquiet hnot => ?_⟩
  · have hcount := hexact.count m
    have hempty : openKeys store.reservations m = ∅ ↔ (openKeys store.reservations m).ncard = 0 :=
      (Set.ncard_eq_zero (hexact.finite m)).symm
    refine ⟨hexact.finite m, hcount, ?_, ?_⟩
    · rw [hempty, ← hcount, reservationSlotCount]
      cases hindex : store.index m with
      | none => simp
      | some entry => simpa using hexact.positive m entry hindex
    · rw [Set.nonempty_iff_ne_empty, Ne, hempty, ← hcount, reservationSlotPinned,
        decide_eq_true_eq, Nat.pos_iff_ne_zero]
  · rcases handle_exact hexact hquiet with ⟨store', hhandle, -⟩ | ⟨_, _, _, _, _, _, _, heq, -⟩
    · exact ⟨store', hhandle⟩
    · exact absurd heq (hnot _ _ _ _ _ _)

/-! ## Teardown with an open reservation -/

/-- One claim of mutation `1` on graph `1`, with a value of one byte. -/
def claimOnce : SlotEvent := .tryReserve 0 1 1 [⟨1, [1], 0⟩] [⟨0, 0⟩] 0

theorem step_claimOnce : (fresh.step claimOnce).reservations =
    update (fun _ => none) ⟨1, 1, [1]⟩ (some ⟨⟨1, 0⟩, .reserved, 0, none, 0, [⟨0, 0⟩], none⟩) := by
  have hcheck : checkClaims 1 [] [] [⟨1, [1], 0⟩] = .ok () := by decide
  have htry : tryReserve 1 1 [⟨1, [1], 0⟩] [⟨0, 0⟩] 0 fresh.reservations =
      .ok (1, update (fun _ => none) ⟨1, 1, [1]⟩
        (some ⟨⟨1, 0⟩, .reserved, 0, none, 0, [⟨0, 0⟩], none⟩)) := by
    rw [tryReserve, hcheck, ok_bind, normalizedScope_singleton]
    rfl
  rw [step, claimOnce, handle, tryReserveUnique, htry]
  rfl

/-- Another graph is torn down. -/
theorem reservationSlots_exact_teardown :
    AllSteps step TeardownQuiet .fresh [claimOnce, .teardown 2] ∧
      ([claimOnce, .teardown 2].foldl step .fresh).reservationSlotCount 1 =
        (openKeys ([claimOnce, .teardown 2].foldl step .fresh).reservations 1).ncard := by
  have hrun : AllSteps step TeardownQuiet .fresh [claimOnce, .teardown 2] := by
    refine ⟨trivial, ?_, trivial⟩
    intro key record hrecord hgraph
    have hkey : key ≠ ⟨1, 1, [1]⟩ := by
      rintro rfl
      cases hgraph
    rw [step_claimOnce, Function.update_of_ne hkey] at hrecord
    cases hrecord
  exact ⟨hrun, ((reservationSlots_exact hrun).1 1).2.1⟩

/-- The graph of the claim is torn down: no reservation is open, and the mutation is
pinned. -/
theorem teardown_leaves_slot :
    openKeys ([claimOnce, .teardown 1].foldl step .fresh).reservations 1 = ∅ ∧
      ([claimOnce, .teardown 1].foldl step .fresh).reservationSlotPinned 1 = true := by
  refine ⟨Set.eq_empty_of_forall_notMem fun key hkey => ?_, by decide +kernel⟩
  have hentry : IsOpen 1 (if key.graphId = 1 then none else
    (fresh.step claimOnce).reservations key) := hkey
  split_ifs at hentry with hgraph
  · exact isOpen_none hentry
  have hne : key ≠ ⟨1, 1, [1]⟩ := by
    rintro rfl
    exact hgraph rfl
  rw [step_claimOnce, Function.update_of_ne hne] at hentry
  exact isOpen_none hentry

end Gleaph
