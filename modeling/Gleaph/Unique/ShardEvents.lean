import Gleaph.Unique.Invariant

/-!
# Gleaph.Unique.ShardEvents

What the shards do keeps the invariant: `ShardStep` says what the processing
of a message may change, whichever message it is.  At the end of the module
stand the two events that belong to neither side: a deletion, and the admission
of a new mutation.
-/

namespace Gleaph

open Function List
variable {shard : ProofShard} {w : UniqueWorld} {rest : List ShardMessage} {message : ShardMessage}

/-- A mutation goes to one shard. -/
theorem UniqueWorld.GoesTo.unique (h : w.GoesTo m shard) (h' : w.GoesTo m shard') :
    shard = shard' := by
  obtain ⟨plan, hplan, -, rfl⟩ := h
  obtain ⟨plan', hplan', -, rfl⟩ := h'
  rw [Option.mem_unique hplan hplan']

/-- A shard takes its next message: the router's tables are not touched, a new
element comes from a write, and an effect goes only when it is acknowledged. -/
structure ShardStep (w w' : UniqueWorld) (shard : ProofShard) (message : ShardMessage)
    (rest : List ShardMessage) : Prop where
  head : w.inbox shard = message :: rest
  router : w'.router = w.router
  plans : w'.plans = w.plans
  deleted : w'.deleted = w.deleted
  inbox : w'.inbox = update w.inbox shard rest
  elements : ∀ owner ∈ w.elements, owner ∈ w'.elements
  kept : ∀ s m owners, w.journal s m = some owners → w'.journal s m = some owners
  made : ∀ s m owners, w'.journal s m = some owners → w.journal s m = some owners ∨
    (s = shard ∧ message = .write m ∧ w.journal s m = none ∧ ∀ c key, c.mutationId = m →
      w.Claims c key → owners c.claimOrdinal ∉ w.elements ∧ owners c.claimOrdinal ∈ w'.elements)
  effect : ∀ s c evidence, w'.outbox s c = some evidence → w.outbox s c = some evidence ∨
    (w'.MadeBy c evidence.ownerElementId ∧
      evidence.effectId = ⟨c.mutationId, c.claimOrdinal⟩)
  gone : ∀ s c key owners, w.Claims c key → w'.journal s c.mutationId = some owners →
    w'.outbox s c = none →
      (w.journal s c.mutationId = some owners ∧ w.outbox s c = none) ∨
        message = .ack ⟨c.mutationId, c.claimOrdinal⟩
  read : ∀ (i : Nat) (read' : ProofRead), w'.proofs[i]? = some read' →
    ∃ read : ProofRead, w.proofs[i]? = some read ∧
    read'.purpose = read.purpose ∧ read'.target = read.target ∧
      (read'.response = read.response ∨ (read.response = none ∧ message = .proof i ∧
        ∃ proofs, read'.response = some proofs ∧
          ∀ proof ∈ proofs, proof.acquire = w.outbox shard proof.claimId))
  reads : ∀ (i : Nat) (read : ProofRead), w.proofs[i]? = some read → ∃ read' : ProofRead,
    w'.proofs[i]? = some read' ∧ read'.target = read.target

namespace ShardStep

variable {w w' : UniqueWorld} {shard : ProofShard} {message : ShardMessage}
  {rest : List ShardMessage}

variable {c : ClaimId}

section

variable (h : ShardStep w w' shard message rest)

include h

/-- A shard admits nothing: the claims are those of before. -/
theorem claims_iff : w'.Claims c key ↔ w.Claims c key := by
  simp only [UniqueWorld.Claims, h.plans]

/-- Nor does it change where a mutation goes. -/
theorem goesTo_iff : w'.GoesTo m s ↔ w.GoesTo m s := by
  simp only [UniqueWorld.GoesTo, h.plans]

/-- Nor what the router has committed. -/
theorem committedBy_iff : w'.CommittedBy key c ↔ w.CommittedBy key c := by
  simp only [UniqueWorld.CommittedBy, h.router]

/-- Every message still waiting was waiting before. -/
theorem mem_inbox (hmem : other ∈ w'.inbox s) : other ∈ w.inbox s := by
  rw [h.inbox] at hmem
  by_cases hs : s = shard
  · subst hs
    rw [update_self] at hmem
    rw [h.head]
    exact mem_cons_of_mem _ hmem
  · rwa [update_of_ne hs] at hmem

/-- The message that is processed was waiting. -/
theorem head_mem : message ∈ w.inbox shard := by
  rw [h.head]
  exact mem_cons_self

/-- A mutation whose write is not on the way does not get on the way. -/
theorem unsent (hm : w.Unsent m) : w'.Unsent m :=
  fun s hmem => hm s (h.mem_inbox hmem)

/-- An owner that was made stays made: no journal entry is lost. -/
theorem madeBy (hc : w.MadeBy c owner) : w'.MadeBy c owner := by
  obtain ⟨s, owners, hjournal, howner⟩ := hc
  exact ⟨s, owners, h.kept s _ owners hjournal, howner⟩

/-- A finished claim stays finished. -/
theorem done (hc : w.Done c) : w'.Done c := by
  obtain ⟨⟨owner, hmade⟩, hdeleted⟩ := hc
  exact ⟨⟨owner, h.madeBy hmade⟩, by rwa [h.deleted]⟩

/-- An unmade mutation is made only by its own write. -/
theorem unmade (hm : w.Unmade m) (hsent : w.Unsent m) : w'.Unmade m := by
  refine fun s => Option.eq_none_iff_forall_ne_some.mpr fun owners hjournal => ?_
  rcases h.made s m owners hjournal with hold | ⟨rfl, rfl, -⟩
  · rw [hm s] at hold
    cases hold
  · exact hsent s h.head_mem

/-- A mutation that can no longer happen still cannot. -/
theorem dead (hm : w.Dead m) : w'.Dead m := by
  obtain ⟨hgate, hunmade, hunsent⟩ := hm
  refine ⟨?_, h.unmade hunmade hunsent, h.unsent hunsent⟩
  simpa only [UniqueWorld.NoDispatch, h.router] using hgate

/-- A shard activates no claim.  The write it may have done was on the way, so
its claims were active before. -/
theorem active (hinv : UniqueInv w) (hc : w'.Active c) :
    w.Active c := by
  rcases hc with ⟨hunmade, hsent⟩ | ⟨⟨owner, s, owners, hmade, howner⟩, halive⟩
  · refine .inl ⟨fun s => Option.eq_none_iff_forall_ne_some.mpr fun owners hs => ?_,
      fun hunsent => hsent (h.unsent hunsent)⟩
    have := h.kept s _ owners hs
    rw [hunmade s] at this
    cases this
  · rcases h.made s _ owners hmade with hold | ⟨rfl, hmessage, hjournal, -⟩
    · exact .inr ⟨⟨owner, s, owners, hold, howner⟩, by rwa [← h.deleted]⟩
    · -- a mutation whose write is being done has no journal entry elsewhere
      subst hmessage
      have hgoes := hinv.sent _ _ h.head_mem
      refine .inl ⟨fun s => Option.eq_none_iff_forall_ne_some.mpr fun owners hs => ?_,
        fun hunsent => hunsent _ h.head_mem⟩
      rw [(hinv.journaled s _ owners hs).unique hgoes, hjournal] at hs
      cases hs

end

end ShardStep

/-- A proof that is answered now finds no effect: the write has not happened,
and none is under way. -/
theorem ShardStep.absent (h : ShardStep w w' shard (.proof i) rest) (hinv : UniqueInv w)
    (hclaims : w.Claims c key) (hgoes : w.GoesTo c.mutationId shard)
    (hrecord : w.router.reservations key = some record) (hstate : record.state = .reclaiming)
    (hdone : ¬w.Done c) (hfenced : w.Fenced i c none) (houtbox : w.outbox shard c = none) :
    w'.Unmade c.mutationId ∧ w'.Unsent c.mutationId := by
  have hunmade : w.Unmade c.mutationId := by
    refine fun s => Option.eq_none_iff_forall_ne_some.mpr fun owners hs => ?_
    obtain rfl := (hinv.journaled s _ owners hs).unique hgoes
    rcases hinv.acked c key s owners hclaims hs houtbox with hover | ⟨other, hother, -, hcommitted⟩
    · exact hdone hover
    obtain rfl := Option.mem_unique hrecord hother
    rw [hstate] at hcommitted
    cases hcommitted
  refine ⟨fun s => Option.eq_none_iff_forall_ne_some.mpr fun owners hs => ?_, fun s hmem => ?_⟩
  · rcases h.made s _ owners hs with hold | ⟨-, ⟨⟩, -⟩
    rw [hunmade s] at hold
    cases hold
  -- a write is at the mutation's shard, and there it would stand behind the proof
  obtain rfl := (hinv.sent s _ (h.mem_inbox hmem)).unique hgoes
  rw [h.inbox, update_self] at hmem
  exact hfenced s [] rest h.head hmem

/-- The fence holds for what is left of the queue. -/
theorem ShardStep.fenced (h : ShardStep w w' shard message rest) (hfenced : w.Fenced i c response) :
    w'.Fenced i c response := by
  cases response with
  | none =>
    intro s front back hinbox
    rw [h.inbox] at hinbox
    by_cases hs : s = shard
    · subst hs
      rw [update_self] at hinbox
      refine hfenced s (message :: front) back ?_
      rw [h.head, hinbox, cons_append]
    · rw [update_of_ne hs] at hinbox
      exact hfenced s front back hinbox
  | some proofs =>
    intro habsent
    obtain ⟨hunmade, hunsent⟩ := hfenced habsent
    exact ⟨h.unmade hunmade hunsent, h.unsent hunsent⟩

/-- The invariant is kept by every step of a shard. -/
theorem UniqueInv.shardStep (hinv : UniqueInv w) (h : ShardStep w w' shard message rest) :
    UniqueInv w' where
  planned := by
    rw [h.plans, h.router]
    exact hinv.planned
  recorded := by
    rw [h.plans, h.router]
    exact hinv.recorded
  indexed := by
    rw [h.plans, h.router]
    exact hinv.indexed
  entries := by
    simp only [h.router, h.claims_iff, h.goesTo_iff]
    exact hinv.entries
  owners := by
    rw [h.router]
    exact fun key record owner hrecord howner => h.madeBy (hinv.owners key record owner hrecord howner)
  stamped := by
    rw [h.router]
    intro key record hrecord hstate
    obtain ⟨owner, hmade⟩ := hinv.stamped key record hrecord hstate
    exact ⟨owner, h.madeBy hmade⟩
  sent := by
    intro s m hmem
    rw [h.goesTo_iff]
    exact hinv.sent s m (h.mem_inbox hmem)
  journaled := by
    intro s m owners hjournal
    rw [h.goesTo_iff]
    rcases h.made s m owners hjournal with hold | ⟨rfl, rfl, -⟩
    · exact hinv.journaled s m owners hold
    · exact hinv.sent s m h.head_mem
  known := by
    rintro c key owner hclaims ⟨s, owners, hjournal, rfl⟩
    rw [h.claims_iff] at hclaims
    rcases h.made s _ owners hjournal with hold | ⟨-, -, -, hnew⟩
    · exact h.elements _ (hinv.known c key _ hclaims ⟨s, owners, hold, rfl⟩)
    · exact (hnew c key rfl hclaims).2
  distinct := by
    -- the elements made now are none of the old ones
    rintro c c' key key' owner hclaims hclaims' ⟨s, owners, hs, howner⟩ ⟨s', owners', hs', howner'⟩
    rw [h.claims_iff] at hclaims hclaims'
    rcases h.made s _ owners hs with hold | ⟨-, hmessage, -, hnew⟩
    · have hmade : w.MadeBy c owner := ⟨s, owners, hold, howner⟩
      rcases h.made s' _ owners' hs' with hold' | ⟨-, -, -, hnew'⟩
      · exact hinv.distinct c c' key key' owner hclaims hclaims' hmade ⟨s', owners', hold', howner'⟩
      · exact absurd (howner' ▸ hinv.known c key owner hclaims hmade) (hnew' c' key' rfl hclaims').1
    · rcases h.made s' _ owners' hs' with hold' | ⟨-, hmessage', -⟩
      · have hmade' : w.MadeBy c' owner := ⟨s', owners', hold', howner'⟩
        exact absurd (howner ▸ hinv.known c' key' owner hclaims' hmade') (hnew c key rfl hclaims).1
      · exact ShardMessage.write.inj (hmessage.symm.trans hmessage')
  pinned := by
    intro s c evidence houtbox
    rcases h.effect s c evidence houtbox with hold | hnew
    · exact (hinv.pinned s c evidence hold).imp_left h.madeBy
    · exact hnew
  holds := by
    intro c key hclaims hactive
    rw [h.claims_iff] at hclaims
    obtain ⟨record, hrecord, hclaim⟩ := hinv.holds c key hclaims (h.active hinv hactive)
    exact ⟨record, by rwa [h.router], hclaim⟩
  acked := by
    intro c key s owner hclaims hjournal houtbox
    rw [h.claims_iff] at hclaims
    rw [h.committedBy_iff]
    rcases h.gone s c key owner hclaims hjournal houtbox with ⟨hold, hgone⟩ | rfl
    · exact (hinv.acked c key s owner hclaims hold hgone).imp_left h.done
    · exact (hinv.acks shard _ key h.head_mem hclaims).imp_left h.done
  acks := by
    intro s e key hmem hclaims
    rw [h.claims_iff] at hclaims
    rw [h.committedBy_iff]
    exact (hinv.acks s e key (h.mem_inbox hmem) hclaims).imp_left h.done
  acksPlanned := by
    intro s e hmem
    rw [h.plans]
    exact hinv.acksPlanned s e (h.mem_inbox hmem)
  proofIndex := by
    intro s i hmem
    obtain ⟨read, hread, htarget⟩ := hinv.proofIndex s i (h.mem_inbox hmem)
    obtain ⟨read', hread', htarget'⟩ := h.reads i read hread
    exact ⟨read', hread', htarget'.trans htarget⟩
  evidence := by
    intro read' hread' proofs hresponse proof hproof evidence hevidence
    obtain ⟨i, hi⟩ := mem_iff_getElem?.mp hread'
    obtain ⟨read, hread, -, -, hsame | ⟨-, -, answers, hanswers, houtbox⟩⟩ := h.read i read' hi
    · exact (hinv.evidence read (mem_of_getElem? hread) proofs (hsame ▸ hresponse) proof hproof
        evidence hevidence).imp_left h.madeBy
    obtain rfl := Option.mem_unique hanswers hresponse
    obtain ⟨hmade, heffect⟩ := hinv.pinned shard _ evidence
      ((houtbox proof hproof).symm.trans hevidence)
    exact ⟨h.madeBy hmade, heffect⟩
  committed := by
    intro read' hread' key c hpurpose
    simp only [h.claims_iff, h.goesTo_iff, h.committedBy_iff]
    obtain ⟨i, hi⟩ := mem_iff_getElem?.mp hread'
    obtain ⟨read, hread, hsame, -⟩ := h.read i read' hi
    obtain ⟨hclaims, hgoes, hover⟩ := hinv.committed read (mem_of_getElem? hread) key c
      (hsame ▸ hpurpose)
    exact ⟨hclaims, hgoes, hover.imp_left h.done⟩
  tickets := by
    intro i read' key ticket hread' hpurpose
    simp only [h.claims_iff, h.goesTo_iff, h.router]
    obtain ⟨read, hread, hsame, htarget, hresponse⟩ := h.read i read' hread'
    obtain ⟨hclaims, hgoes, hover⟩ := hinv.tickets i read key ticket hread (hsame ▸ hpurpose)
    refine ⟨hclaims, htarget ▸ hgoes, ?_⟩
    by_cases hdone : w.Done ticket.claim
    · exact .inl (h.done hdone)
    rcases hover with hdone' | hdead | ⟨record, hrecord, hclaim, hle, hfenced⟩
    · exact absurd hdone' hdone
    · exact .inr (.inl (h.dead hdead))
    refine .inr (.inr ⟨record, hrecord, hclaim, hle, fun hstate hgen => ?_⟩)
    have hfenced := hfenced hstate hgen
    rcases hresponse with hresponse | ⟨hnone, rfl, proofs, hproofs, houtbox⟩
    · rw [hresponse]
      exact h.fenced hfenced
    rw [hproofs]
    rw [hnone] at hfenced
    rintro ⟨proof, hproof, hsame, habsent⟩
    obtain ⟨other, hother, hshard⟩ := hinv.proofIndex shard i h.head_mem
    obtain rfl := Option.mem_unique hread hother
    rw [hshard] at hgoes
    refine h.absent hinv hclaims hgoes hrecord hstate hdone hfenced ?_
    rw [← hsame, ← houtbox proof hproof, habsent]

/-! ### Messages -/

/-- The world without the message that is being processed. -/
def UniqueWorld.popped (w : UniqueWorld) (shard : ProofShard) (rest : List ShardMessage) :
    UniqueWorld :=
  { w with inbox := update w.inbox shard rest }

namespace ShardStep

variable {w : UniqueWorld} {shard : ProofShard}

/-- A message that is dropped, as a failed one is. -/
theorem popped (head : w.inbox shard = message :: rest) :
    ShardStep w (w.popped shard rest) shard message rest where
  head := head
  router := rfl
  plans := rfl
  deleted := rfl
  inbox := rfl
  elements := fun _ h => h
  kept := fun _ _ _ h => h
  made := fun _ _ _ h => .inl h
  effect := fun _ _ _ h => .inl h
  gone := fun _ _ _ _ _ hjournal houtbox => .inl ⟨hjournal, houtbox⟩
  read := fun _ read' h => ⟨read', h, rfl, rfl, .inl rfl⟩
  reads := fun _ read h => ⟨read, h, rfl⟩

/-- The write of a mutation, the first time it arrives: the journal entry, the
effects and the owners are recorded together. -/
theorem write (head : w.inbox shard = .write m :: rest) (hplan : w.plans m = some plan)
    (hjournal : w.journal shard m = none)
    (hnew : ∀ claim ∈ plan.claims, owners claim.claimOrdinal ∉ w.elements) :
    ShardStep w ((w.popped shard rest).record shard m plan owners) shard (.write m) rest :=
  { popped head with
    elements := fun _ h => mem_append_right _ h
    kept := by
      intro s m' owner' h
      by_cases hs : s = shard
      · subst hs
        have hm : m' ≠ m := by
          rintro rfl
          rw [hjournal] at h
          cases h
        simpa [UniqueWorld.record, UniqueWorld.popped, hm] using h
      · simpa [UniqueWorld.record, UniqueWorld.popped, hs] using h
    made := by
      intro s m' owners' h
      by_cases hs : s = shard
      · subst hs
        by_cases hm : m' = m
        · subst hm
          obtain rfl : owners = owners' := by simpa [UniqueWorld.record] using h
          refine .inr ⟨rfl, rfl, hjournal, ?_⟩
          rintro c key rfl ⟨plan', hplan', claim, hclaim, hid, -⟩
          obtain rfl := Option.mem_unique hplan hplan'
          rw [show c.claimOrdinal = claim.claimOrdinal by rw [← hid]; rfl]
          exact ⟨hnew claim hclaim, mem_append_left _ (mem_map.mpr ⟨claim, hclaim, rfl⟩)⟩
        · exact .inl (by simpa [UniqueWorld.record, UniqueWorld.popped, hm] using h)
      · exact .inl (by simpa [UniqueWorld.record, UniqueWorld.popped, hs] using h)
    effect := by
      intro s c evidence h
      by_cases hs : s = shard
      · subst hs
        simp only [UniqueWorld.record, update_self] at h
        split at h
        next hmem =>
          obtain ⟨claim, -, rfl⟩ := mem_map.mp hmem
          cases h
          exact .inr ⟨⟨s, owners, by simp [UniqueWorld.record, ReservationClaim.claimId], rfl⟩, rfl⟩
        next => exact .inl h
      · exact .inl (by simpa [UniqueWorld.record, UniqueWorld.popped, hs] using h)
    gone := by
      intro s c key owner' hclaims hjournal' houtbox
      left
      by_cases hs : s = shard
      · subst hs
        simp only [UniqueWorld.record, update_self] at houtbox hjournal'
        split at houtbox
        · cases houtbox
        next hmem =>
          -- all claims of the mutation have their effect
          have hm : c.mutationId ≠ m := by
            intro hm
            obtain ⟨plan', hplan', claim, hclaim, hid, -⟩ := hclaims
            rw [hm] at hplan' hid
            obtain rfl := Option.mem_unique hplan hplan'
            exact hmem (mem_map.mpr ⟨claim, hclaim, hid⟩)
          rw [update_of_ne hm] at hjournal'
          exact ⟨hjournal', houtbox⟩
      · simp only [UniqueWorld.record, UniqueWorld.popped, update_of_ne hs] at houtbox hjournal'
        exact ⟨hjournal', houtbox⟩ }

/-- An acknowledgement takes its effect out of the outbox. -/
theorem ack (head : w.inbox shard = .ack e :: rest) :
    ShardStep w ({ w.popped shard rest with
      outbox := update w.outbox shard
        (update (w.outbox shard) ⟨e.mutationId, e.effectOrdinal⟩ none) } : UniqueWorld)
      shard (.ack e) rest :=
  { popped head with
    effect := by
      intro s c evidence h
      left
      by_cases hs : s = shard
      · subst hs
        by_cases hc : c = ⟨e.mutationId, e.effectOrdinal⟩
        · subst hc
          simp at h
        · simpa [hc] using h
      · simpa [hs] using h
    gone := by
      intro s c key owner hclaims hjournal houtbox
      by_cases hs : s = shard
      · subst hs
        by_cases hc : c = ⟨e.mutationId, e.effectOrdinal⟩
        · subst hc
          exact .inr rfl
        · exact .inl ⟨hjournal, by simpa [hc] using houtbox⟩
      · exact .inl ⟨hjournal, by simpa [hs] using houtbox⟩ }

/-- A proof is answered from the outbox of the shard that is asked. -/
theorem proof (head : w.inbox shard = .proof i :: rest) {read : ProofRead}
    (hread : w.proofs[i]? = some read) (hnone : read.response = none) :
    ShardStep w ({ w.popped shard rest with
      proofs := w.proofs.set i { read with
        response := some (read.claims.map fun claim => ⟨claim, w.outbox shard claim⟩) } } : UniqueWorld)
      shard (.proof i) rest :=
  { popped head with
    read := by
      intro j read' h
      rw [List.getElem?_set] at h
      by_cases hj : i = j
      · subst hj
        simp only [(List.getElem?_eq_some_iff.mp hread).1, if_true, Option.some.injEq] at h
        subst h
        refine ⟨read, hread, rfl, rfl, .inr ⟨hnone, rfl, _, rfl, ?_⟩⟩
        intro proof hproof
        obtain ⟨claim, -, rfl⟩ := List.mem_map.mp hproof
        rfl
      · rw [if_neg hj] at h
        exact ⟨read', h, rfl, rfl, .inl rfl⟩
    reads := by
      intro j read' h
      rw [List.getElem?_set]
      by_cases hj : i = j
      · subst hj
        obtain rfl := Option.mem_unique hread h
        rw [if_pos rfl, if_pos (List.getElem?_eq_some_iff.mp hread).1]
        exact ⟨_, rfl, rfl⟩
      · exact ⟨read', by rw [if_neg hj]; exact h, rfl⟩ }

end ShardStep

/-- Whatever message a shard processes, and whether or not it fails, the
invariant stays. -/
theorem UniqueInv.processMessage (hinv : UniqueInv w) (head : w.inbox shard = message :: rest)
    (owners : Nat → List UInt8) (fails : Bool) :
    UniqueInv ((w.popped shard rest).processMessage shard owners fails message) := by
  have hpopped := hinv.shardStep (.popped head)
  cases message with
  | write m =>
    simp only [UniqueWorld.processMessage]
    split
    next plan hplan hjournal =>
      split
      · exact hpopped
      next hnew =>
        refine hinv.shardStep (.write head hplan hjournal fun claim hclaim hmem => ?_)
        exact hnew ⟨claim, hclaim, hmem⟩
    · exact hpopped
  | proof i =>
    simp only [UniqueWorld.processMessage]
    split
    next read hread =>
      split
      · exact hpopped
      next hnone => exact hinv.shardStep (.proof head hread (by simpa using hnone))
    · exact hpopped
  | ack e => exact hinv.shardStep (.ack head)

/-- An element is deleted. -/
theorem UniqueInv.delete (hinv : UniqueInv w) (c : ClaimId) :
    UniqueInv ({ w with deleted := update w.deleted c true } : UniqueWorld) := by
  have hdeleted : ∀ c', w.deleted c' = true → update w.deleted c true c' = true := by
    intro c' hc'
    by_cases hc : c' = c
    · subst hc
      exact update_self ..
    · rwa [update_of_ne hc]
  have hdone : ∀ c', w.Done c' →
      ({ w with deleted := update w.deleted c true } : UniqueWorld).Done c' :=
    fun c' hc' => ⟨hc'.1, hdeleted c' hc'.2⟩
  exact { hinv with
    holds := by
      intro c key hclaims hactive
      refine hinv.holds c key hclaims (hactive.imp_right fun halive => ⟨halive.1, ?_⟩)
      cases hold : w.deleted c with
      | false => rfl
      | true => exact (hdeleted _ hold).symm.trans halive.2
    acked := fun c key shard owner' hclaims hjournal houtbox =>
      (hinv.acked c key shard owner' hclaims hjournal houtbox).imp_left (hdone _)
    acks := fun shard e key hmem hclaims =>
      (hinv.acks shard e key hmem hclaims).imp_left (hdone _)
    committed := by
      intro read hread key c hpurpose
      obtain ⟨hclaims, hgoes, hover⟩ := hinv.committed read hread key c hpurpose
      exact ⟨hclaims, hgoes, hover.imp_left (hdone _)⟩
    tickets := by
      intro i read key ticket hread hpurpose
      obtain ⟨hclaims, hgoes, hover⟩ := hinv.tickets i read key ticket hread hpurpose
      exact ⟨hclaims, hgoes, hover.imp_left (hdone _)⟩ }

/-! ## Admission -/

section

variable {w : UniqueWorld} {plan : MutationPlan}

/-- An admission adds one plan and keeps the others. -/
theorem admitted_plans (hm : m ≠ w.router.nextMutationId) : (w.admitted plan).plans m = w.plans m :=
  update_of_ne hm ..

section

variable (hinv : UniqueInv w)

include hinv

/-- The ids of the plans are below the next id. -/
theorem UniqueInv.planned_ne (h : w.plans m = some plan') : m ≠ w.router.nextMutationId :=
  (hinv.planned m plan' h).ne

/-- So a plan survives the next admission. -/
theorem UniqueInv.plans_admitted (h : w.plans m = some plan') :
    (w.admitted plan).plans m = some plan' :=
  (admitted_plans (hinv.planned_ne h)).trans h

/-- And a mutation still goes where it went. -/
theorem UniqueInv.goesTo_admitted (h : w.GoesTo m shard) : (w.admitted plan).GoesTo m shard := by
  obtain ⟨plan', hplan', hgoes⟩ := h
  exact ⟨plan', hinv.plans_admitted hplan', hgoes⟩

/-- And claims what it claimed. -/
theorem UniqueInv.claims_admitted (h : w.Claims c key) : (w.admitted plan).Claims c key := by
  obtain ⟨plan', hplan', hclaim⟩ := h
  exact ⟨plan', hinv.plans_admitted hplan', hclaim⟩

/-- The claims of the mutations that were there are the same. -/
theorem UniqueInv.claims_of_planned (h : (w.admitted plan).Claims c key)
    (hplanned : ∃ plan', w.plans c.mutationId = some plan') : w.Claims c key := by
  obtain ⟨plan', hplan', hclaim⟩ := h
  obtain ⟨plan'', hplan''⟩ := hplanned
  rw [admitted_plans (hinv.planned_ne hplan'')] at hplan'
  exact ⟨plan', hplan', hclaim⟩

/-- Only planned mutations have made anything. -/
theorem UniqueInv.made_planned (h : w.MadeBy c owner) :
    ∃ plan', w.plans c.mutationId = some plan' := by
  obtain ⟨shard, owners, hjournal, -⟩ := h
  obtain ⟨plan', hplan', -⟩ := hinv.journaled shard _ owners hjournal
  exact ⟨plan', hplan'⟩

/-- An admission, with its reservations, keeps the invariant. -/
theorem UniqueInv.admitted : UniqueInv (w.admitted plan) where
  planned := by
    intro m plan' hplan'
    by_cases hm : m = w.router.nextMutationId
    · exact hm ▸ Nat.lt_succ_self _
    · rw [admitted_plans hm] at hplan'
      exact (hinv.planned m plan' hplan').trans (Nat.lt_succ_self _)
  recorded := by
    intro clientKey record hrecord
    rcases update_eq_some.mp hrecord with ⟨rfl, ⟨⟩⟩ | ⟨-, hrecord⟩
    · exact ⟨plan, update_self .., rfl⟩
    · obtain ⟨plan', hplan', hclient⟩ := hinv.recorded clientKey record hrecord
      exact ⟨plan', hinv.plans_admitted hplan', hclient⟩
  indexed := by
    intro m entry hentry
    obtain ⟨plan', hplan', hclient⟩ := hinv.indexed m entry hentry
    exact ⟨plan', hinv.plans_admitted hplan', hclient⟩
  entries := by
    intro key record hrecord
    obtain ⟨hclaims, shard, hscope, hgoes⟩ := hinv.entries key record hrecord
    exact ⟨hinv.claims_admitted hclaims, shard, hscope, hinv.goesTo_admitted hgoes⟩
  owners := hinv.owners
  stamped := hinv.stamped
  sent := fun shard m hmem => hinv.goesTo_admitted (hinv.sent shard m hmem)
  journaled := fun shard m owners hjournal =>
    hinv.goesTo_admitted (hinv.journaled shard m owners hjournal)
  known := fun c key owner hclaims hmade =>
    hinv.known c key owner (hinv.claims_of_planned hclaims (hinv.made_planned hmade)) hmade
  distinct := fun c c' key key' owner hclaims hclaims' hmade hmade' =>
    hinv.distinct c c' key key' owner (hinv.claims_of_planned hclaims (hinv.made_planned hmade))
      (hinv.claims_of_planned hclaims' (hinv.made_planned hmade')) hmade hmade'
  pinned := hinv.pinned
  holds := by
    intro c key hclaims hactive
    -- a mutation that is active was admitted before
    have hplanned : ∃ plan', w.plans c.mutationId = some plan' := by
      rcases hactive with ⟨-, hsent⟩ | ⟨⟨owner, hmade⟩, -⟩
      · obtain ⟨shard, hmem⟩ := not_forall_not.mp hsent
        obtain ⟨plan', hplan', -⟩ := hinv.sent shard _ hmem
        exact ⟨plan', hplan'⟩
      · exact hinv.made_planned hmade
    exact hinv.holds c key (hinv.claims_of_planned hclaims hplanned) hactive
  acked := by
    intro c key shard owner hclaims hjournal houtbox
    obtain ⟨plan', hplan', -⟩ := hinv.journaled shard _ owner hjournal
    exact hinv.acked c key shard owner (hinv.claims_of_planned hclaims ⟨plan', hplan'⟩) hjournal houtbox
  acks := fun shard e key hmem hclaims => hinv.acks shard e key hmem
    (hinv.claims_of_planned hclaims (hinv.acksPlanned shard e hmem))
  acksPlanned := by
    intro shard e hmem
    obtain ⟨plan', hplan'⟩ := hinv.acksPlanned shard e hmem
    exact ⟨plan', hinv.plans_admitted hplan'⟩
  proofIndex := hinv.proofIndex
  evidence := hinv.evidence
  committed := by
    intro read hread key c hpurpose
    obtain ⟨hclaims, ⟨shard, hgoes⟩, hover⟩ := hinv.committed read hread key c hpurpose
    exact ⟨hinv.claims_admitted hclaims, ⟨shard, hinv.goesTo_admitted hgoes⟩, hover⟩
  tickets := by
    intro i read key ticket hread hpurpose
    obtain ⟨hclaims, hgoes, hover⟩ := hinv.tickets i read key ticket hread hpurpose
    have ⟨plan', hplan', _⟩ := hgoes
    refine ⟨hinv.claims_admitted hclaims, hinv.goesTo_admitted hgoes, ?_⟩
    -- a mutation that is over stays so: the new record is another one's
    refine hover.imp_right fun hover => hover.imp_left fun hdead =>
      ⟨fun clientKey record hrecord hid => ?_, hdead.2⟩
    rcases update_eq_some.mp hrecord with ⟨-, ⟨⟩⟩ | ⟨-, hrecord⟩
    · exact absurd hid.symm (hinv.planned_ne hplan')
    · exact hdead.1 clientKey record hrecord hid

end

end

end Gleaph
