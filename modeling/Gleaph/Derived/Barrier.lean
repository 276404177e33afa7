import Gleaph.Runs
import Gleaph.Derived.Tagged

/-!
# Gleaph.Derived.Barrier

The read barrier over the pending floor.

A read that asks for at least a mutation's token compares the token with the
smallest mutation id that has index work in a durable queue of the shard.  This
says something about the mutation only if its postings are in those queues
under its own id, or applied.  They get there from volatile queues that are
shared, and whoever comes first takes all of them: a mutation that ends files
them in the outbox or flushes them under its id, the maintenance pass files
them in the journal, or flushes them, under no id.

`BarrierState` is one shard with its mutations, each suspended anywhere, and
one maintenance pass or synchronous drain at a time.  `TakesOwnWork` says that
no one takes another mutation's postings; under it every posting of a mutation
that has replied is applied or filed under its id (`BarrierInv.located`), which
is what the barrier looks at.
-/

namespace Gleaph

open Function

/-! ## The router's side -/

structure ReadTokenShard where
  shardId : Nat
  labelStatsSeq : Option Nat
deriving DecidableEq

structure ReadToken where
  mutationId : Nat
  shards : List ReadTokenShard
deriving DecidableEq

inductive ReadMode where
  | eventual
  | atLeast (token : ReadToken)
deriving DecidableEq

inductive BarrierError where
  | projectionLag (shardId : Nat) (watermark : String) (required current : Nat)
  | internal (detail : String)
  | notFound (detail : String)
deriving DecidableEq

/-- What the router reads: its own cursor of a shard's label statistics, the
canister of a shard, and that canister's answer for its pending minimum. -/
structure BarrierLookups where
  labelStatsProjectionCursor : Nat → Nat
  resolveShard : Nat → Except BarrierError Nat
  indexLookup : Nat → Except String (Option Nat)

def checkLabelStats (lookups : BarrierLookups) (shard : ReadTokenShard) : Except BarrierError Unit :=
  match shard.labelStatsSeq with
  | none => .ok ()
  | some required =>
    let current := lookups.labelStatsProjectionCursor shard.shardId
    if current < required then
      .error (.projectionLag shard.shardId "label_stats" required current)
    else .ok ()

def checkGraphIndex (lookups : BarrierLookups) (mutationId : Nat) (shard : ReadTokenShard) :
    Except BarrierError Unit := do
  let canister ← lookups.resolveShard shard.shardId
  match lookups.indexLookup canister with
  | .error detail => .error (.internal detail)
  | .ok none => .ok ()
  | .ok (some minPending) =>
    if minPending ≤ mutationId then
      .error (.projectionLag shard.shardId "graph_index" mutationId minPending)
    else .ok ()

def enforceReadConsistency (lookups : BarrierLookups) : ReadMode → Except BarrierError Unit
  | .eventual => .ok ()
  | .atLeast token => forM token.shards fun shard => do
    checkLabelStats lookups shard
    checkGraphIndex lookups token.mutationId shard

/-! ## The shard -/

/-- Where a mutation stands.  A flush that traps ends it without a reply. -/
inductive MutationPhase where
  | idle
  | running
  | flushing (flush : Flush)
  | trapped
  | finished
  | replied

def MutationPhase.isReplied : MutationPhase → Bool
  | .replied => true
  | _ => false

/-- What a drain is part of: the synchronous drain, or one of the three places
of the maintenance pass. -/
inductive DrainKind where
  | sync
  | journalFirst
  | outbox
  | journalLast
deriving DecidableEq

/-- The pass under way. -/
inductive Activity where
  | drain (kind : DrainKind) (pass : SuspendedPass)
  | flush (flush : Flush)
  | vectorFlush (clients : DrainClients)

structure BarrierState where
  durable : TaggedStore
  pending : PendingQueues
  activity : Option Activity
  phase : Nat → MutationPhase
  /-- All postings ever queued. -/
  queued : List PostingTag
  /-- All postings the index has reported as applied. -/
  applied : List PostingTag

/-- A posting without its owner. -/
abbrev PostingOp := { op : RepairPostingOp // (DurableOp.ordinary op).isPosting = true }

inductive BarrierEvent where
  | begin (mutationId : Nat)
  /-- A segment of a running mutation queues postings. -/
  | queue (mutationId : Nat) (ops : List PostingOp)
  /-- The compaction of a maintenance pass queues postings. -/
  | compact (ops : List PostingOp)
  /-- The mutation ends and files what is pending in the outbox. -/
  | persist (mutationId : Nat) (vectors : List VectorEmbeddingSyncOp)
  /-- An ordered batch flushes what is pending before its reply. -/
  | flushOwn (mutationId : Nat) (clients : DrainClients)
  | flushReply (mutationId : Nat) (reply : Except String IndexPostingBatchProgress)
  | reply (mutationId : Nat)
  | syncDrain (clients : DrainClients)
  | tick (clients : DrainClients) (vectors : List VectorEmbeddingSyncOp)
  | activityReply (reply : Reply)
  | vectorsFlushed (vectors : List VectorEmbeddingSyncOp)

namespace BarrierState

section

variable (s : BarrierState)

def setPhase (mutationId : Nat) (phase : MutationPhase) : BarrierState :=
  { s with phase := update s.phase mutationId phase }

@[simp] theorem setPhase_setPhase (m : Nat) (phase phase' : MutationPhase) :
    (s.setPhase m phase).setPhase m phase' = s.setPhase m phase' := by
  simp [setPhase]

/-- All that is pending, in the order of dispatch. -/
def taken : List QueuedPosting := s.pending.takePendingAsRepair

def enqueue (owner : Nat) (ops : List PostingOp) : BarrierState :=
  let xs : List QueuedPosting :=
    ops.zipIdx.map fun op => ⟨op.1.1, op.1.2, owner, s.queued.length + op.2⟩
  { s with
    pending := xs.foldl PendingQueues.push s.pending
    queued := s.queued ++ xs.map QueuedPosting.tag }

/-- Start a drain; one that has nothing to send is over at once. -/
def startDrain (kind : DrainKind) (q : DurableQueue) (clients : DrainClients) : BarrierState :=
  match drainQueue clients q s.durable.store with
  | .done _ => { s with activity := none }
  | .suspended await rest => { s with activity := some (.drain kind ⟨q, clients, await, rest⟩) }

/-- File what was pending, in the segment that takes it; a trap takes
nothing. -/
def file (q : DurableQueue) (mutationId : Nat) (postings : List QueuedPosting)
    (vectors : List VectorEmbeddingSyncOp) : Option BarrierState :=
  (s.durable.append q mutationId postings vectors).map fun durable =>
    { s with durable, pending := .empty }

/-- The maintenance pass flushes what is pending, under no id. -/
def flushPending (clients : DrainClients) : BarrierState :=
  match flushAllPending clients 0 s.taken with
  | .done journaled =>
    match s.file .repairJournal 0 journaled [] with
    | none => { s with activity := none }
    | some s => { s with activity := some (.vectorFlush clients) }
  | .suspended flush => { s with pending := .empty, activity := some (.flush flush) }

/-- The maintenance pass behind the outbox. -/
def afterOutbox (clients : DrainClients) : BarrierState :=
  if (s.durable.store.peekQueue .derivedIndexOutbox).isEmpty then
    if (s.durable.store.rows .repairJournal).isEmpty then s.flushPending clients
    else s.startDrain .journalLast .repairJournal clients
  else { s with activity := none }

/-- A maintenance pass: older work in the journal goes first and takes what is
pending with it; then the outbox, then what is pending. -/
def flushAndRepair (clients : DrainClients) (vectors : List VectorEmbeddingSyncOp) : BarrierState :=
  if (s.durable.store.rows .repairJournal).isEmpty then
    match drainQueue clients .derivedIndexOutbox s.durable.store with
    | .done _ => s.afterOutbox clients
    | .suspended await rest =>
      { s with activity := some (.drain .outbox ⟨.derivedIndexOutbox, clients, await, rest⟩) }
  else
    match s.file .repairJournal 0 s.taken vectors with
    | none => s
    | some s => s.startDrain .journalFirst .repairJournal clients

/-- What is left of a flush goes to the journal under an id. -/
def journal (mutationId : Nat) (journaled : List QueuedPosting) : Option BarrierState :=
  (s.durable.append .repairJournal mutationId journaled []).map fun durable => { s with durable }

/-- A mutation's flush goes on or ends. -/
def flushed (mutationId : Nat) : FlushResult → BarrierState
  | .done journaled =>
    match s.journal mutationId journaled with
    | none => s.setPhase mutationId .trapped
    | some s => s.setPhase mutationId .finished
  | .suspended flush => s.setPhase mutationId (.flushing flush)

/-- The flush of the maintenance pass goes on or ends. -/
def maintenanceFlushed (clients : DrainClients) : FlushResult → BarrierState
  | .done journaled =>
    match s.journal 0 journaled with
    | none => { s with activity := none }
    | some s => { s with activity := some (.vectorFlush clients) }
  | .suspended flush => { s with activity := some (.flush flush) }

/-- A reply to a drain. -/
def drained (kind : DrainKind) (pass : SuspendedPass) :
    Except String (DerivedIndexStore × DrainStatus) → BarrierState
  | .error _ => { s with activity := none }
  | .ok (store, .suspended await rest) =>
    { s with durable := { s.durable with store }
             activity := some (.drain kind { pass with await, rest }) }
  | .ok (store, .done _) =>
    let s := { s with durable := { s.durable with store }, activity := none }
    match kind with
    | .outbox => s.afterOutbox pass.clients
    | _ => s

def step : BarrierEvent → BarrierState
  | .begin mutationId =>
    match s.phase mutationId with
    | .idle | .finished => if mutationId = 0 then s else s.setPhase mutationId .running
    | _ => s
  | .queue mutationId ops =>
    match s.phase mutationId with
    | .running => s.enqueue mutationId ops
    | _ => s
  | .compact ops => s.enqueue 0 ops
  | .persist mutationId vectors =>
    match s.phase mutationId, s.file .derivedIndexOutbox mutationId s.taken vectors with
    | .running, some s => s.setPhase mutationId .finished
    | _, _ => s
  | .flushOwn mutationId clients =>
    match s.phase mutationId, flushAllPending clients mutationId s.taken with
    | .running, .done journaled =>
      match s.file .repairJournal mutationId journaled [] with
      | none => s
      | some s => s.setPhase mutationId .finished
    | .running, .suspended flush =>
      { s with pending := .empty }.setPhase mutationId (.flushing flush)
    | _, _ => s
  | .flushReply mutationId reply =>
    match s.phase mutationId with
    | .flushing flush =>
      { s with applied := s.applied ++ (flush.reported reply).map QueuedPosting.tag }.flushed
        mutationId (flush.resume reply)
    | _ => s
  | .reply mutationId =>
    match s.phase mutationId with
    | .finished => s.setPhase mutationId .replied
    | _ => s
  | .syncDrain clients =>
    if s.activity.isNone then s.startDrain .sync .derivedIndexOutbox clients else s
  | .tick clients vectors =>
    if s.activity.isNone && s.durable.store.federationConfigured then
      s.flushAndRepair clients vectors
    else s
  | .activityReply reply =>
    match s.activity, reply with
    | some (.drain kind pass), reply =>
      { s with applied := s.applied ++ s.durable.reported pass reply }.drained kind pass
        (resume pass.clients pass.queue s.durable.store pass.await pass.rest reply)
    | some (.flush flush), .progress result =>
      { s with applied := s.applied ++ (flush.reported result).map QueuedPosting.tag }.maintenanceFlushed
        flush.clients (flush.resume result)
    | _, _ => s
  | .vectorsFlushed vectors =>
    match s.activity with
    | some (.vectorFlush clients) =>
      match s.durable.append .repairJournal 0 [] vectors with
      | none => { s with activity := none }
      | some durable => { s with durable }.startDrain .journalLast .repairJournal clients
    | _ => s

end

/-- A shard with these rows, whose postings no one asks about. -/
def fresh (store : DerivedIndexStore) : BarrierState where
  durable := ⟨store, fun _ _ => .untracked⟩
  pending := .empty
  activity := none
  phase _ := .idle
  queued := []
  applied := []

end BarrierState

/-! ## What is asked -/

/-- No posting of another mutation is pending. -/
def BarrierState.PendingOf (s : BarrierState) (mutationId : Nat) : Prop :=
  ∀ x ∈ s.taken, x.owner = 0 ∨ x.owner = mutationId

instance (s : BarrierState) (mutationId : Nat) : Decidable (s.PendingOf mutationId) :=
  inferInstanceAs (Decidable (∀ x ∈ s.taken, _))

/-- Whoever takes the pending postings takes their own: a mutation that files
or flushes finds no other mutation's, and maintenance finds no mutation's when
it starts and when its outbox drain is answered. -/
def TakesOwnWork (s : BarrierState) : BarrierEvent → Prop
  | .persist mutationId _ => s.PendingOf mutationId
  | .flushOwn mutationId _ => s.PendingOf mutationId
  | .tick _ _ => s.PendingOf 0
  | .activityReply _ =>
    match s.activity with
    | some (.drain .outbox _) => s.PendingOf 0
    | _ => True
  | _ => True

instance (s : BarrierState) (event : BarrierEvent) : Decidable (TakesOwnWork s event) := by
  unfold TakesOwnWork
  split
  · infer_instance
  · infer_instance
  · infer_instance
  · split <;> infer_instance
  · infer_instance

/-! ## The invariant -/

/-- The posting waits somewhere: in the volatile queues, in its mutation's own
flush, or in a durable queue. -/
def BarrierState.Waits (s : BarrierState) (tag : PostingTag) : Prop :=
  (∃ x ∈ s.taken, x.tag = tag) ∨
    (∃ flush, s.phase tag.1 = .flushing flush ∧ ∃ x ∈ flush.postings, x.tag = tag) ∨
      s.durable.Stored tag

/-- The invariant inside a segment that has `hand` in its hands; between
segments `hand` is empty. -/
structure BarrierInv (hand : List QueuedPosting) (s : BarrierState) : Prop where
  sound : s.durable.Sound
  held : ∀ kind pass, s.activity = some (.drain kind pass) → pass.Held pass.queue s.durable.store
  /-- The flush of a maintenance pass holds no mutation's posting. -/
  unowned : ∀ flush, s.activity = some (.flush flush) → ∀ x ∈ flush.postings, x.owner = 0
  running : ∀ x ∈ s.taken, x.owner ≠ 0 → s.phase x.owner = .running
  /-- The flush of a mutation holds only its own postings. -/
  own : ∀ m flush, s.phase m = .flushing flush → ∀ x ∈ flush.postings, x.owner = 0 ∨ x.owner = m
  /-- Nothing is lost on the way, except by a trap. -/
  located : ∀ tag ∈ s.queued, tag.1 ≠ 0 → s.phase tag.1 ≠ .trapped →
    tag ∈ s.applied ∨ s.Waits tag ∨ ∃ x ∈ hand, x.tag = tag

namespace BarrierInv

/-- The pass is over. -/
theorem idle (hinv : BarrierInv hand s) : BarrierInv hand { s with activity := none } :=
  { hinv with
    held := by simp
    unowned := by simp }

theorem vectorFlush (hinv : BarrierInv hand s) (clients : DrainClients) :
    BarrierInv hand { s with activity := some (.vectorFlush clients) } :=
  { hinv.idle with held := by simp, unowned := by simp }

theorem startDrain (hinv : BarrierInv hand s) (kind : DrainKind) (q : DurableQueue)
    (clients : DrainClients) : BarrierInv hand (s.startDrain kind q clients) := by
  unfold BarrierState.startDrain
  split
  · exact hinv.idle
  next await rest hdrain =>
    refine { hinv.idle with held := ?_, unowned := by simp }
    rintro kind' pass ⟨⟩
    exact SuspendedPass.Held.of_drainQueue hdrain

/-! ### What the hands take and give -/

/-- Take all that is pending. -/
theorem take (hinv : BarrierInv [] s) : BarrierInv s.taken { s with pending := .empty } :=
  { hinv with
    running := by
      intro x hx
      cases hx
    located := by
      intro tag htag htracked hphase
      rcases hinv.located tag htag htracked hphase with happlied | (hpending | hwaits) | ⟨x, hx, -⟩
      · exact .inl happlied
      · exact .inr (.inr hpending)
      · exact .inr (.inl (.inr hwaits))
      · cases hx }

/-- Postings without an owner may be dropped. -/
theorem drop (hinv : BarrierInv hand s) (hhand : ∀ x ∈ hand, x.owner = 0) : BarrierInv [] s :=
  { hinv with
    located := by
      intro tag htag htracked hphase
      rcases hinv.located tag htag htracked hphase with happlied | hwaits | ⟨x, hx, rfl⟩
      · exact .inl happlied
      · exact .inr (.inl hwaits)
      · exact absurd (hhand x hx) htracked }

/-- The index has applied the first of them. -/
theorem apply (hinv : BarrierInv (applied ++ hand) s) :
    BarrierInv hand { s with applied := s.applied ++ applied.map QueuedPosting.tag } :=
  { hinv with
    located := by
      intro tag htag htracked hphase
      rcases hinv.located tag htag htracked hphase with happlied | hwaits | ⟨x, hx, rfl⟩
      · exact .inl (List.mem_append_left _ happlied)
      · exact .inr (.inl hwaits)
      rcases List.mem_append.mp hx with hx | hx
      · exact .inl (List.mem_append_right _ (List.mem_map_of_mem hx))
      · exact .inr (.inr ⟨x, hx, rfl⟩) }

theorem applyMore (hinv : BarrierInv hand s) (more : List PostingTag) :
    BarrierInv hand { s with applied := s.applied ++ more } :=
  { hinv with located := fun tag htag htracked hphase =>
      (hinv.located tag htag htracked hphase).imp_left (List.mem_append_left _) }

/-- More in the hands does no harm. -/
theorem pick (hinv : BarrierInv [] s) (more : List QueuedPosting) : BarrierInv more s :=
  { hinv with located := fun tag htag htracked hphase =>
      (hinv.located tag htag htracked hphase).imp_right (Or.imp_right (by simp)) }

/-- File them under an id that is theirs. -/
theorem append (hinv : BarrierInv hand s)
    (happend : s.durable.append q m hand vectors = some durable)
    (hhand : ∀ x ∈ hand, x.owner = 0 ∨ x.owner = m) : BarrierInv [] { s with durable } := by
  obtain ⟨happended, hsound⟩ := TaggedStore.append_appended happend
  refine ⟨hsound hinv.sound hhand, fun kind pass hpass => ?_, hinv.unowned, hinv.running, hinv.own, ?_⟩
  · exact (hinv.held kind pass hpass).of_subset (happended.stays _)
  intro tag htag htracked hphase
  rcases hinv.located tag htag htracked hphase with
    happlied | (hpending | hflush | hstored) | ⟨x, hx, rfl⟩
  · exact .inl happlied
  · exact .inr (.inl (.inl hpending))
  · exact .inr (.inl (.inr (.inl hflush)))
  · exact .inr (.inl (.inr (.inr (happended.kept tag hstored))))
  · exact .inr (.inl (.inr (.inr (happended.stored x hx))))

/-! ### Phases -/

/-- A new phase for a mutation: what its flush held before is now in the hands,
what its flush holds now was in the hands. -/
theorem setPhase (hinv : BarrierInv hand s) (phase : MutationPhase) (hand' : List QueuedPosting)
    (hpending : phase = .running ∨ ∀ x ∈ s.taken, x.owner ≠ 0 → x.owner ≠ m)
    (hown : ∀ flush, phase = .flushing flush → ∀ x ∈ flush.postings, x.owner = 0 ∨ x.owner = m)
    (hothers : ∀ x ∈ hand, x.owner = 0 ∨ x.owner = m ∨ x ∈ hand')
    (hlocated : phase ≠ .trapped → s.phase m ≠ .trapped ∧
      (∀ flush, s.phase m = .flushing flush → flush.postings ⊆ hand') ∧
      ∀ x ∈ hand, x ∈ hand' ∨ ∃ flush, phase = .flushing flush ∧ x ∈ flush.postings) :
    BarrierInv hand' (s.setPhase m phase) where
  sound := hinv.sound
  held := hinv.held
  unowned := hinv.unowned
  running := by
    intro x hx howner
    by_cases hm : x.owner = m
    · rcases hpending with rfl | hpending
      · simp [BarrierState.setPhase, hm]
      · exact absurd hm (hpending x hx howner)
    · exact (update_of_ne hm ..).trans (hinv.running x hx howner)
  own := by
    intro m' flush hphase
    by_cases hm : m' = m
    · subst hm
      exact hown flush (by simpa only [BarrierState.setPhase, update_self] using hphase)
    · simp only [BarrierState.setPhase, update_of_ne hm] at hphase
      exact hinv.own m' flush hphase
  located := by
    intro tag htag htracked hphase
    by_cases hm : tag.1 = m
    · simp only [BarrierState.setPhase, hm, update_self] at hphase
      obtain ⟨htrapped, hreleased, hkept⟩ := hlocated hphase
      rcases hinv.located tag htag htracked (hm ▸ htrapped) with
        happlied | (hpending | ⟨flush, hflush, x, hx, rfl⟩ | hstored) | ⟨x, hx, rfl⟩
      · exact .inl happlied
      · exact .inr (.inl (.inl hpending))
      · exact .inr (.inr ⟨x, hreleased flush (hm ▸ hflush) hx, rfl⟩)
      · exact .inr (.inl (.inr (.inr hstored)))
      rcases hkept x hx with hx | ⟨flush, hflush, hx⟩
      · exact .inr (.inr ⟨x, hx, rfl⟩)
      · refine .inr (.inl (.inr (.inl ⟨flush, ?_, x, hx, rfl⟩)))
        simp only [BarrierState.setPhase, hm, update_self, hflush]
    · simp only [BarrierState.setPhase, update_of_ne hm] at hphase
      rcases hinv.located tag htag htracked hphase with
        happlied | (hpending | hflush | hstored) | ⟨x, hx, rfl⟩
      · exact .inl happlied
      · exact .inr (.inl (.inl hpending))
      · refine .inr (.inl (.inr (.inl ?_)))
        simpa only [BarrierState.setPhase, update_of_ne hm] using hflush
      · exact .inr (.inl (.inr (.inr hstored)))
      rcases hothers x hx with hzero | howner | hx
      · exact absurd hzero htracked
      · exact absurd howner hm
      · exact .inr (.inr ⟨x, hx, rfl⟩)

/-- A phase without a flush, from another such. -/
theorem setPlainPhase (hinv : BarrierInv [] s)
    (hpending : phase = .running ∨ ∀ x ∈ s.taken, x.owner ≠ 0 → x.owner ≠ m)
    (hbefore : ∀ flush, s.phase m ≠ .flushing flush) (htrapped : s.phase m ≠ .trapped)
    (hafter : ∀ flush, phase ≠ .flushing flush) : BarrierInv [] (s.setPhase m phase) :=
  hinv.setPhase phase [] hpending (fun flush h => absurd h (hafter flush)) (by simp) fun _ =>
    ⟨htrapped, fun flush h => absurd h (hbefore flush), by simp⟩

/-- A flushing mutation has nothing pending. -/
theorem not_pending (hinv : BarrierInv hand s) (hphase : s.phase m ≠ .running) :
    ∀ x ∈ s.taken, x.owner ≠ 0 → x.owner ≠ m := by
  rintro x hx howner rfl
  exact hphase (hinv.running x hx howner)

/-! ### The steps -/

section

variable (hinv : BarrierInv [] s)

include hinv

theorem enqueue (ops : List PostingOp) (howner : owner = 0 ∨ s.phase owner = .running) :
    BarrierInv [] (s.enqueue owner ops) :=
  { hinv with
    running := by
      intro x hx htracked
      rcases PendingQueues.mem_foldl_push.mp hx with hx | hx
      · exact hinv.running x hx htracked
      · obtain ⟨op, -, rfl⟩ := List.mem_map.mp hx
        exact howner.resolve_left htracked
    located := by
      intro tag htag htracked hphase
      rcases List.mem_append.mp htag with htag | htag
      · rcases hinv.located tag htag htracked hphase with happlied | (⟨x, hx, rfl⟩ | hwaits) | ⟨x, hx, -⟩
        · exact .inl happlied
        · exact .inr (.inl (.inl ⟨x, PendingQueues.mem_foldl_push.mpr (.inl hx), rfl⟩))
        · exact .inr (.inl (.inr hwaits))
        · cases hx
      · obtain ⟨x, hx, rfl⟩ := List.mem_map.mp htag
        exact .inr (.inl (.inl ⟨x, PendingQueues.mem_foldl_push.mpr (.inr hx), rfl⟩)) }

theorem file (hpending : s.PendingOf m) (h : s.file q m s.taken vectors = some s') :
    BarrierInv [] s' ∧ s'.taken = [] ∧ s'.phase = s.phase := by
  obtain ⟨durable, happend, rfl⟩ := Option.map_eq_some_iff.mp h
  exact ⟨hinv.take.append happend hpending, rfl, rfl⟩

/-- A mutation that has filed all that was pending ends. -/
theorem finish (htaken : s.taken = []) (hphase : s.phase m = .running) :
    BarrierInv [] (s.setPhase m .finished) :=
  hinv.setPlainPhase (.inr (by simp [htaken])) (by simp [hphase]) (by simp [hphase]) (by simp)

section

variable (hpending : s.PendingOf 0) (clients : DrainClients)

include hpending clients

theorem flushPending : BarrierInv [] (s.flushPending clients) := by
  have hleft := flushAllPending_left clients 0 s.taken
  unfold BarrierState.flushPending
  split
  next journaled hflush =>
    obtain rfl : journaled = s.taken := by rwa [hflush] at hleft
    split
    · exact hinv.idle
    next s' hfile => exact (hinv.file hpending hfile).1.vectorFlush clients
  next flush hflush =>
    have hpostings : flush.postings = s.taken := by rwa [hflush] at hleft
    have hzero : ∀ x ∈ s.taken, x.owner = 0 := fun x hx => (hpending x hx).elim id id
    refine { (hinv.take.drop hzero).idle with held := by simp, unowned := ?_ }
    rintro flush' ⟨⟩
    rwa [hpostings]

theorem afterOutbox : BarrierInv [] (s.afterOutbox clients) := by
  unfold BarrierState.afterOutbox
  split
  · split
    · exact hinv.flushPending hpending clients
    · exact hinv.startDrain ..
  · exact hinv.idle

theorem flushAndRepair (vectors : List VectorEmbeddingSyncOp) :
    BarrierInv [] (s.flushAndRepair clients vectors) := by
  unfold BarrierState.flushAndRepair
  split
  · split
    · exact hinv.afterOutbox hpending clients
    next await rest hdrain =>
      have := hinv.startDrain .outbox .derivedIndexOutbox clients
      rwa [BarrierState.startDrain, hdrain] at this
  · split
    · exact hinv
    next s' hfile => exact (hinv.file hpending hfile).1.startDrain ..

end

/-- The reply to a mutation's flush. -/
theorem flushed (hphase : s.phase m = .flushing flush)
    (reply : Except String IndexPostingBatchProgress) :
    BarrierInv [] ({ s with
      applied := s.applied ++ (flush.reported reply).map QueuedPosting.tag }.flushed m
        (flush.resume reply)) := by
  have hidle : ∀ x ∈ s.taken, x.owner ≠ 0 → x.owner ≠ m := hinv.not_pending (by simp [hphase])
  have hown := hinv.own m flush hphase
  have hsplit := flush.reported_append_left reply
  -- the flush's postings come into the hands, and those applied leave them
  have hreleased : BarrierInv (flush.resume reply).left ({ s with
      applied := s.applied ++ (flush.reported reply).map QueuedPosting.tag }.setPhase m .finished) := by
    refine BarrierInv.apply (s := s.setPhase m .finished) ?_
    rw [hsplit]
    refine hinv.setPhase .finished _ (.inr hidle) (by simp) (by simp) fun _ =>
      ⟨by simp [hphase], ?_, by simp⟩
    intro flush' hflush'
    obtain rfl : flush = flush' := by simpa [hphase] using hflush'
    exact List.Subset.refl _
  have hleft : ∀ x ∈ (flush.resume reply).left, x.owner = 0 ∨ x.owner = m := fun x hx =>
    hown x (hsplit ▸ List.mem_append_right _ hx)
  cases hresult : flush.resume reply with
  | done journaled =>
    rw [hresult] at hreleased hleft
    unfold BarrierState.flushed BarrierState.journal
    simp only
    cases happend : s.durable.append .repairJournal m journaled [] with
    | none =>
      have := hreleased.setPhase .trapped [] (.inr hidle) (by simp)
        (fun x hx => (hleft x hx).imp_right .inl) (by simp)
      rwa [BarrierState.setPhase_setPhase] at this
    | some durable => exact hreleased.append happend hleft
  | suspended next =>
    rw [hresult] at hreleased hleft
    have := hreleased.setPhase (.flushing next) [] (.inr hidle)
      (by rintro _ ⟨⟩; exact hleft) (fun x hx => (hleft x hx).imp_right .inl) fun _ =>
        ⟨by simp [BarrierState.setPhase], by simp [BarrierState.setPhase],
          fun x hx => .inr ⟨next, rfl, hx⟩⟩
    rwa [BarrierState.setPhase_setPhase] at this

/-- The reply to the flush of a maintenance pass, which holds no mutation's
posting. -/
theorem maintenanceFlushed (hactivity : s.activity = some (.flush flush))
    (reply : Except String IndexPostingBatchProgress) :
    BarrierInv [] ({ s with
      applied := s.applied ++ (flush.reported reply).map QueuedPosting.tag }.maintenanceFlushed
        flush.clients (flush.resume reply)) := by
  have hzero : ∀ x ∈ (flush.resume reply).left, x.owner = 0 := fun x hx =>
    hinv.unowned flush hactivity x (flush.reported_append_left reply ▸ List.mem_append_right _ hx)
  have happlied := hinv.applyMore ((flush.reported reply).map QueuedPosting.tag)
  cases hresult : flush.resume reply with
  | done journaled =>
    rw [hresult] at hzero
    unfold BarrierState.maintenanceFlushed BarrierState.journal
    simp only
    cases happend : s.durable.append .repairJournal 0 journaled [] with
    | none => exact happlied.idle
    | some durable =>
      exact ((happlied.pick journaled).append happend fun x hx => .inl (hzero x hx)).vectorFlush _
  | suspended next =>
    rw [hresult] at hzero
    refine { happlied.idle with held := by simp [BarrierState.maintenanceFlushed], unowned := ?_ }
    rintro _ ⟨⟩
    exact hzero

/-- The reply to a drain. -/
theorem drained {pass : SuspendedPass} (hactivity : s.activity = some (.drain kind pass))
    (hpending : kind = .outbox → s.PendingOf 0) (reply : Reply) :
    BarrierInv [] ({ s with applied := s.applied ++ s.durable.reported pass reply }.drained kind pass
      (resume pass.clients pass.queue s.durable.store pass.await pass.rest reply)) := by
  cases hresume : resume pass.clients pass.queue s.durable.store pass.await pass.rest reply with
  | error e => exact (hinv.applyMore _).idle
  | ok result =>
    obtain ⟨store, status⟩ := result
    obtain ⟨hsound, hstays, hheld⟩ :=
      TaggedStore.resume_sound hinv.sound (hinv.held kind pass hactivity) hresume
    have hover : BarrierInv [] { s with
        durable := { s.durable with store }
        applied := s.applied ++ s.durable.reported pass reply
        activity := none } := by
      refine ⟨hsound, by simp, by simp, hinv.running, hinv.own, ?_⟩
      intro tag htag htracked hphase
      rcases hinv.located tag htag htracked hphase with
        happlied | (hpending | hflush | hstored) | ⟨x, hx, -⟩
      · exact .inl (List.mem_append_left _ happlied)
      · exact .inr (.inl (.inl hpending))
      · exact .inr (.inl (.inr (.inl hflush)))
      · rcases hstays tag htracked hstored with hstored | hreported
        · exact .inr (.inl (.inr (.inr hstored)))
        · exact .inl (List.mem_append_right _ hreported)
      · cases hx
    cases status with
    | done result =>
      unfold BarrierState.drained
      simp only
      split
      · exact hover.afterOutbox (hpending rfl) pass.clients
      · exact hover
    | suspended await rest =>
      refine { hover with held := ?_, unowned := by simp [BarrierState.drained] }
      rintro kind' pass' ⟨⟩
      exact hheld await rest rfl

theorem step {event : BarrierEvent} (hown : TakesOwnWork s event) :
    BarrierInv [] (s.step event) := by
  unfold BarrierState.step
  cases event with
  | begin m =>
    simp only
    split
    next hphase =>
      split
      · exact hinv
      · exact hinv.setPlainPhase (.inl rfl) (by simp [hphase]) (by simp [hphase]) (by simp)
    next hphase =>
      split
      · exact hinv
      · exact hinv.setPlainPhase (.inl rfl) (by simp [hphase]) (by simp [hphase]) (by simp)
    next => exact hinv
  | queue m ops =>
    simp only
    split
    next hphase => exact hinv.enqueue ops (.inr hphase)
    next => exact hinv
  | compact ops => exact hinv.enqueue ops (.inl rfl)
  | persist m vectors =>
    simp only
    split
    next s' hphase hfile =>
      obtain ⟨hinv', htaken, hphases⟩ := hinv.file hown hfile
      exact hinv'.finish htaken (hphases ▸ hphase)
    next => exact hinv
  | flushOwn m clients =>
    have hleft := flushAllPending_left clients m s.taken
    simp only
    split
    next journaled hphase hflush =>
      obtain rfl : journaled = s.taken := by rwa [hflush] at hleft
      split
      · exact hinv
      next s' hfile =>
        obtain ⟨hinv', htaken, hphases⟩ := hinv.file hown hfile
        exact hinv'.finish htaken (hphases ▸ hphase)
    next flush hphase hflush =>
      have hpostings : flush.postings = s.taken := by rwa [hflush] at hleft
      refine hinv.take.setPhase _ _ (.inr ?_) ?_ (fun x hx => (hown x hx).imp_right .inl) fun _ =>
        ⟨by simp [hphase], by simp [hphase], fun x hx => .inr ⟨flush, rfl, hpostings ▸ hx⟩⟩
      · intro x hx
        cases hx
      · rintro _ ⟨⟩
        rwa [hpostings]
    next => exact hinv
  | flushReply m reply =>
    simp only
    split
    next flush hphase => exact hinv.flushed hphase reply
    next => exact hinv
  | reply m =>
    simp only
    split
    next hphase =>
      exact hinv.setPlainPhase (.inr (hinv.not_pending (by simp [hphase]))) (by simp [hphase])
        (by simp [hphase]) (by simp)
    next => exact hinv
  | syncDrain clients =>
    simp only
    split
    · exact hinv.startDrain ..
    · exact hinv
  | tick clients vectors =>
    simp only
    split
    · exact hinv.flushAndRepair hown clients vectors
    · exact hinv
  | activityReply reply =>
    simp only
    split
    next kind pass _ hactivity =>
      refine hinv.drained hactivity ?_ _
      rintro rfl
      simpa only [TakesOwnWork, hactivity] using hown
    next flush result hactivity => exact hinv.maintenanceFlushed hactivity result
    next => exact hinv
  | vectorsFlushed vectors =>
    simp only
    split
    next clients hactivity =>
      split
      · exact hinv.idle
      next durable happend => exact (hinv.append happend (by simp)).startDrain ..
    next => exact hinv

end

theorem fresh (hfloor : store.FloorExact) :
    BarrierInv [] (.fresh store) where
  sound := ⟨hfloor, fun q row _ htracked => absurd rfl htracked⟩
  held := by simp [BarrierState.fresh]
  unowned := by simp [BarrierState.fresh]
  running := by
    intro x hx
    cases hx
  own := by simp [BarrierState.fresh]
  located := by simp [BarrierState.fresh]

end BarrierInv

/-! ## The barrier -/

/-- A read that asks for a replied mutation's token, and finds the minimum of
this shard high enough, finds all its postings applied; and while a posting of
a mutation is in a durable queue, the minimum is at most its id. -/
structure ReadsOwnWrites (s : BarrierState) : Prop where
  applied : ∀ (lookups : BarrierLookups) (token : ReadToken) (shard : ReadTokenShard) (canister : Nat),
    token.mutationId ≠ 0 → (s.phase token.mutationId).isReplied → shard ∈ token.shards →
    lookups.resolveShard shard.shardId = .ok canister →
    lookups.indexLookup canister = .ok s.durable.store.indexPendingMinMutationId →
    enforceReadConsistency lookups (.atLeast token) = .ok () →
    ∀ tag ∈ s.queued, tag.1 = token.mutationId → tag ∈ s.applied
  floor : ∀ tag, tag.1 ≠ 0 → s.durable.Stored tag →
    ∃ min, s.durable.store.indexPendingMinMutationId = some min ∧ min ≤ tag.1

/-- **Read your writes**: in every run in which no one takes another mutation's
pending postings. -/
theorem reads_own_writes {store : DerivedIndexStore} (hfloor : store.FloorExact)
    {events : List BarrierEvent}
    (hrun : AllSteps BarrierState.step TakesOwnWork (.fresh store) events) :
    ReadsOwnWrites (events.foldl BarrierState.step (.fresh store)) := by
  have hinv : BarrierInv [] (events.foldl BarrierState.step (.fresh store)) :=
    foldl_invariant (fun s event hinv hown => hinv.step hown) (.fresh hfloor) hrun
  refine ⟨?_, fun tag htracked hstored => hinv.sound.min_le hstored htracked⟩
  intro lookups token shard canister htracked hreplied hshard hcanister hlookup hpasses tag hqueued htag
  have hphase : (events.foldl BarrierState.step (.fresh store)).phase tag.1 = .replied := by
    rw [htag]
    unfold MutationPhase.isReplied at hreplied
    split at hreplied
    next h => exact h
    next => cases hreplied
  have htracked' : tag.1 ≠ 0 := htag ▸ htracked
  -- a mutation that has replied waits in a durable queue or not at all
  rcases hinv.located tag hqueued htracked' (by simp [hphase]) with
    happlied | (⟨x, hx, rfl⟩ | ⟨flush, hflush, -⟩ | hstored) | ⟨x, hx, -⟩
  · exact happlied
  · have := hinv.running x hx htracked'
    rw [show x.owner = x.tag.1 from rfl, hphase] at this
    cases this
  · rw [hphase] at hflush
    cases hflush
  · obtain ⟨min, hmin, hle⟩ := hinv.sound.min_le hstored htracked'
    -- the read has seen only work of greater ids on the shard
    obtain ⟨_, -, hcheck⟩ := bind_inv (forM_eq_ok hpasses hshard)
    rw [checkGraphIndex, hcanister, ok_bind, hlookup, hmin] at hcheck
    simp only at hcheck
    split at hcheck
    · cases hcheck
    next hlt => omega
  · cases hx

/-- A mutation is suspended with a posting pending, and a maintenance pass
takes it; the index does not answer, and the posting goes to the journal under
no id.  The mutation finds nothing to file and replies. -/
def takenByMaintenance : List BarrierEvent :=
  [.begin 1, .queue 1 [⟨.label false 7 1, rfl⟩], .tick smallPostings [],
    .activityReply (.progress (.error "unreachable")), .persist 1 [], .reply 1]

/-- A router that knows one shard, whose pending minimum is the given one. -/
def oneShard (pending : Option Nat) : BarrierLookups :=
  ⟨fun _ => 0, fun _ => .ok 0, fun _ => .ok pending⟩

/-- A read with the mutation's token passes, and its posting is not in the
index. -/
theorem takenByMaintenance_not_read :
    ¬ReadsOwnWrites (takenByMaintenance.foldl BarrierState.step (.fresh .fresh)) := by
  intro h
  have happlied := h.applied
    (oneShard (takenByMaintenance.foldl BarrierState.step (.fresh .fresh)).durable.store.indexPendingMinMutationId)
    ⟨1, [⟨0, none⟩]⟩ ⟨0, none⟩ 0 (by decide) (by decide +kernel) (by decide) rfl rfl
    (by decide +kernel) (1, 0) (by decide +kernel) rfl
  revert happlied
  decide +kernel

/-- The same mutation with no pass in between. -/
theorem reads_own_writes_alone :
    ReadsOwnWrites ([BarrierEvent.begin 1, .queue 1 [⟨.label false 7 1, rfl⟩], .persist 1 [],
      .reply 1, .tick smallPostings [], .activityReply (.progress (.ok ⟨1, none⟩))].foldl
        BarrierState.step (.fresh .fresh)) :=
  reads_own_writes DerivedIndexStore.fresh_floorExact (by decide +kernel)

end Gleaph
