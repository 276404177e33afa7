import Gleaph.Runs
import Gleaph.LabelStats.Projection

/-!
# Gleaph.LabelStats.Runs

Runs of the label statistics projection: mutations change the elements of the
shards, which append events, any number of `advance_label_stats_projection`
calls overlap, lists are answered and delivered late or not at all,
acknowledgements are lost or come again.

The invariant `Sound` ties the three cursors together.  A call's own cursor and
every acknowledgement are at most the durable cursor; what a call was answered
is a stretch of the shard's history behind its cursor.  So a call either meets
the gap that another call's acknowledgement left, or walks over events from its
own cursor on without a hole, and those up to the durable cursor it passes
over.  The sums of a shard's events are the numbers of its elements, so they
stay within the room it has for them.
-/

namespace Gleaph.LabelProjection

open Function List

variable {G S E : Type}

/-- A call of `advance_label_stats_projection` in flight. -/
structure Call (G S : Type) where
  key : G × S
  limit : Nat
  cursor : Nat
  reply : Option (List LabelStatsDeltaEvent)
  finished : Bool

structure System (G S E : Type) where
  shards : G × S → DeltaLog
  router : Router G S
  calls : List (Call G S)
  /-- The acknowledgements sent so far. -/
  acks : List ((G × S) × Nat)
  /-- Not stored: all events of a shard, oldest first. -/
  history : G × S → List LabelStatsDeltaEvent
  /-- Not stored: the elements of a shard by label, as its events tell. -/
  elements : G × S → Finset (Label × E)

inductive ProjectionEvent (G S E : Type) where
  /-- A mutation commits on a shard. -/
  | append (key : G × S) (mutationId : Nat) (changes : List (ElementChange E))
  | advance (key : G × S) (limit : Nat)
  /-- The shard answers the list request of a call. -/
  | list (call : Nat)
  /-- The answer reaches the router. -/
  | reply (call : Nat)
  /-- The list request fails. -/
  | fail (call : Nat)
  /-- An acknowledgement reaches its shard, perhaps again. -/
  | ack (index : Nat)

namespace System

def fresh : System G S E := ⟨fun _ => .empty, .empty, [], [], fun _ => [], fun _ => ∅⟩

variable [DecidableEq G] [DecidableEq S] [DecidableEq E] [ToString S]

/-- The router goes on with a call whose list has arrived. -/
def resume (sys : System G S E) (index : Nat) (call : Call G S)
    (deltas : List LabelStatsDeltaEvent) : System G S E :=
  let (router, _, ack) := sys.router.finishAdvance call.key.1 call.key.2 call.cursor deltas
  { sys with
    router
    calls := sys.calls.set index { call with finished := true }
    acks := sys.acks ++ ack.toList.map fun throughSeq => (call.key, throughSeq) }

/-- A mutation that leaves the sums of all labels as they were appends nothing. -/
def append (sys : System G S E) (key : G × S) (mutationId : Nat) (delta : LabelStatsDelta)
    (alive : Finset (Label × E)) : System G S E :=
  if delta = .empty then { sys with elements := update sys.elements key alive }
  else
    match (sys.shards key).commitAppend mutationId delta with
    | .error _ => sys
    | .ok (shard, event) =>
      { sys with
        shards := update sys.shards key shard
        history := update sys.history key (sys.history key ++ [event])
        elements := update sys.elements key alive }

def step (sys : System G S E) : ProjectionEvent G S E → System G S E
  | .append key mutationId changes =>
    match changes.foldlM ElementChange.apply (sys.elements key) with
    | none => sys
    | some alive => sys.append key mutationId (changes.foldl ElementChange.record .empty) alive
  | .advance key limit =>
    match sys.router.startAdvance key limit with
    | .error _ => sys
    | .ok cursor => { sys with calls := sys.calls ++ [⟨key, limit, cursor, none, false⟩] }
  | .list index =>
    match sys.calls[index]? with
    | none => sys
    | some call =>
      if call.reply.isSome then sys
      else
        { sys with
          calls := sys.calls.set index
            { call with reply := some ((sys.shards call.key).listFrom (call.cursor + 1) call.limit) } }
  | .reply index =>
    match sys.calls[index]? with
    | none => sys
    | some call =>
      match call.reply, call.finished with
      | some deltas, false => sys.resume index call deltas
      | _, _ => sys
  | .fail index =>
    match sys.calls[index]? with
    | none => sys
    | some call => { sys with calls := sys.calls.set index { call with finished := true } }
  | .ack index =>
    match sys.acks[index]? with
    | none => sys
    | some (key, throughSeq) =>
      { sys with
        shards := update sys.shards key ((sys.shards key).removeThrough throughSeq) }

end System

/-! ## One event -/

/-- The router has applied the history of every shard up to its cursor. -/
def Projected (router : Router G S) (history : G × S → List LabelStatsDeltaEvent) : Prop :=
  ∀ key, router.cursor key ≤ (history key).length ∧
    router.applied key = (history key).take (router.cursor key)

/-- Events are numbered from one on. -/
def Numbered (history : List LabelStatsDeltaEvent) : Prop :=
  ∀ (i : Nat) (event : LabelStatsDeltaEvent), history[i]? = some event → event.shardEventSeq = i + 1

def changesOf (events : List LabelStatsDeltaEvent) : List (Label × Int) :=
  events.flatMap fun event => event.labelStatsDelta.changes

theorem changesOf_append (xs ys : List LabelStatsDeltaEvent) :
    changesOf (xs ++ ys) = changesOf xs ++ changesOf ys := by
  simp [changesOf]

/-- The sums of a label stay within the room of a shard, and the room of all
shards of a graph fits into 64 bits. -/
structure Countable [Fintype S] (room : Nat) (history : G × S → List LabelStatsDeltaEvent) :
    Prop where
  within : ∀ key, Within room (changesOf (history key))
  fits : Fintype.card S * room < 2 ^ 64

/-- The counts are those of the events applied. -/
def Counted [Fintype S] (router : Router G S) : Prop :=
  Counts router fun key => changesOf (router.applied key)

variable {router : Router G S} {history : G × S → List LabelStatsDeltaEvent}

/-- What an event or a call does to the router: it stays projected, no cursor
goes back, and what it applies is counted. -/
structure Advances (history : G × S → List LabelStatsDeltaEvent) (router router' : Router G S) :
    Prop where
  projected : Projected router' history
  cursor : ∀ key, router.cursor key ≤ router'.cursor key
  counted : ∀ [Fintype S] {room}, Countable room history → Counted router → Counted router'

theorem Advances.refl (h : Projected router history) : Advances history router router :=
  ⟨h, fun _ => le_rfl, fun _ hcounted => hcounted⟩

theorem Advances.trans (h : Advances history router router')
    (h' : Advances history router' router'') : Advances history router router'' :=
  ⟨h'.projected, fun key => (h.cursor key).trans (h'.cursor key),
    fun hcountable hcounted => h'.counted hcountable (h.counted hcountable hcounted)⟩

section Event

variable [DecidableEq G] [DecidableEq S]

theorem payload_cursor_applied (router : Router G S) (graphId : G) (shardId : S)
    (delta : LabelStatsDelta) :
    (router.applyLabelStatsDeltaPayload graphId shardId delta).cursor = router.cursor ∧
      (router.applyLabelStatsDeltaPayload graphId shardId delta).applied = router.applied := by
  unfold Router.applyLabelStatsDeltaPayload
  generalize delta.changes = changes
  induction changes generalizing router with
  | nil => exact ⟨rfl, rfl⟩
  | cons change changes ih =>
    obtain ⟨hcursor, happlied⟩ := ih (router.commitApplyLabelDelta graphId shardId change.1 change.2)
    rw [foldl_cons, hcursor, happlied, Router.commitApplyLabelDelta]
    split_ifs <;> exact ⟨rfl, rfl⟩

variable {event : LabelStatsDeltaEvent}

/-- The router after an event that it does not pass over. -/
theorem applyLabelStatsDeltaEvent_of_lt
    (hrouter : router.applyLabelStatsDeltaEvent graphId shardId event = router')
    (h : router.cursor (graphId, shardId) < event.shardEventSeq) :
    router'.cursor = update router.cursor (graphId, shardId) event.shardEventSeq ∧
      router'.applied = update router.applied (graphId, shardId)
        (router.applied (graphId, shardId) ++ [event]) ∧
      router'.live = (router.applyLabelStatsDeltaPayload graphId shardId event.labelStatsDelta).live ∧
      router'.stats =
        (router.applyLabelStatsDeltaPayload graphId shardId event.labelStatsDelta).stats := by
  obtain ⟨hcursor, happlied⟩ :=
    payload_cursor_applied router graphId shardId event.labelStatsDelta
  rw [← hrouter, Router.applyLabelStatsDeltaEvent, if_neg (by omega)]
  dsimp only
  rw [Router.commitLabelStatsProjectionCursor, if_pos (by rw [hcursor]; exact h)]
  exact ⟨by rw [hcursor], by rw [happlied], rfl, rfl⟩

/-- An applied event is counted. -/
theorem applyLabelStatsDeltaEvent_counted [Fintype S]
    (hrouter : router.applyLabelStatsDeltaEvent graphId shardId event = router')
    (hlt : router.cursor (graphId, shardId) < event.shardEventSeq) (h : Projected router' history)
    (hcountable : Countable room history) (hcounted : Counted router) : Counted router' := by
  obtain ⟨-, happlied, hlive, hstats⟩ := applyLabelStatsDeltaEvent_of_lt hrouter hlt
  have hdone : (fun key => changesOf (router'.applied key)) =
      update (fun key => changesOf (router.applied key)) (graphId, shardId)
        (changesOf (router.applied (graphId, shardId)) ++ event.labelStatsDelta.changes) := by
    funext key
    rw [happlied]
    by_cases hkey : key = (graphId, shardId)
    · subst hkey
      rw [update_self, update_self, changesOf_append]
      simp [changesOf]
    · rw [update_of_ne hkey, update_of_ne hkey]
  have hbefore : ∀ key, changesOf (router'.applied key) <+: changesOf (history key) := by
    intro key
    rw [(h key).2]
    exact ⟨_, by rw [← changesOf_append, take_append_drop]⟩
  have hpayload := Counts.payload hcounted hcountable.fits fun key =>
    congrFun hdone key ▸ (hcountable.within key).of_isPrefix (hbefore key)
  rw [Counted, hdone]
  exact ⟨by rw [hlive]; exact hpayload.live, by rw [hlive, hstats]; exact hpayload.graph⟩

/-- The next event of a shard's history is applied once, and one before the
cursor is passed over. -/
theorem applyLabelStatsDeltaEvent_advances (h : Projected router history)
    (hevent : (history (graphId, shardId))[i]? = some event) (hseq : event.shardEventSeq = i + 1)
    (hi : i ≤ router.cursor (graphId, shardId)) :
    Advances history router (router.applyLabelStatsDeltaEvent graphId shardId event) ∧
      i + 1 ≤ (router.applyLabelStatsDeltaEvent graphId shardId event).cursor (graphId, shardId) := by
  by_cases hpassed : event.shardEventSeq ≤ router.cursor (graphId, shardId)
  · rw [Router.applyLabelStatsDeltaEvent, if_pos hpassed]
    exact ⟨.refl h, by omega⟩
  generalize hrouter : router.applyLabelStatsDeltaEvent graphId shardId event = router'
  obtain ⟨hcursor, happlied, -, -⟩ := applyLabelStatsDeltaEvent_of_lt hrouter (not_le.mp hpassed)
  obtain rfl : i = router.cursor (graphId, shardId) := by omega
  obtain ⟨hlt, -⟩ := List.getElem?_eq_some_iff.mp hevent
  have hprojected : Projected router' history := by
    intro key
    rw [hcursor, happlied]
    by_cases hkey : key = (graphId, shardId)
    · subst hkey
      rw [update_self, update_self, hseq, (h _).2, take_add_one, hevent]
      exact ⟨hlt, rfl⟩
    · rw [update_of_ne hkey, update_of_ne hkey]
      exact h key
  refine ⟨⟨hprojected, ?_, applyLabelStatsDeltaEvent_counted hrouter (not_le.mp hpassed) hprojected⟩,
    ?_⟩
  · rw [hcursor]
    exact (forall_update_iff _ fun key cursor => router.cursor key ≤ cursor).mpr
      ⟨by omega, fun _ _ => le_rfl⟩
  · rw [hcursor, update_self, hseq]

end Event

/-! ## One call -/

section Finish

variable {listed : List LabelStatsDeltaEvent}

/-- The first event of a stretch of the history. -/
theorem head_of_drop {events : List LabelStatsDeltaEvent}
    (h : event :: listed <+: events.drop start) :
    events[start]? = some event ∧ listed <+: events.drop (start + 1) := by
  obtain ⟨rest, hrest⟩ := h
  constructor
  · have hhead := congrArg (fun events : List LabelStatsDeltaEvent => events[0]?) hrest
    simpa using hhead.symm
  · rw [← tail_drop, ← hrest]
    exact prefix_append _ _

variable [DecidableEq G] [DecidableEq S] [ToString S] {cursor : Nat}
  {result : Except ProjectionError AdvanceResult}

/-- A call that walks over the history from its own cursor on leaves the router
projected, and ends at most at the durable cursor. -/
theorem applyListed_advances (hnumbered : Numbered (history (graphId, shardId))) {count : Nat}
    (h : Projected router history) (hcursor : cursor ≤ router.cursor (graphId, shardId))
    (hlisted : listed <+: (history (graphId, shardId)).drop cursor)
    (happly : Router.applyListed graphId shardId cursor count listed router = (router', result)) :
    Advances history router router' ∧
      ∀ done, result = .ok done → done.appliedThroughSeq ≤ router'.cursor (graphId, shardId) := by
  induction listed generalizing router cursor count with
  | nil =>
    cases happly
    refine ⟨.refl h, ?_⟩
    rintro done heq
    cases heq
    exact hcursor
  | cons event listed ih =>
    obtain ⟨hevent, htail⟩ := head_of_drop hlisted
    have hseq := hnumbered _ _ hevent
    unfold Router.applyListed at happly
    split at happly
    · cases happly
      exact ⟨.refl h, fun _ heq => (by cases heq)⟩
    split at happly
    · cases happly
      exact ⟨.refl h, fun _ heq => (by cases heq)⟩
    obtain ⟨hadvances, hnext⟩ := applyLabelStatsDeltaEvent_advances h hevent hseq hcursor
    obtain ⟨hfinal, hthrough⟩ :=
      ih hadvances.projected (hseq ▸ hnext) (hseq ▸ htail) happly
    exact ⟨hadvances.trans hfinal, hthrough⟩

/-- What a call may have been answered: a stretch of the history behind its
cursor. -/
def Answered (history : List LabelStatsDeltaEvent) (cursor : Nat) (listed : List LabelStatsDeltaEvent) :
    Prop :=
  ∃ start, cursor ≤ start ∧ listed <+: history.drop start

theorem finishAdvance_advances (hnumbered : Numbered (history (graphId, shardId)))
    {ack : Option Nat} (h : Projected router history)
    (hcursor : cursor ≤ router.cursor (graphId, shardId))
    (hlisted : Answered (history (graphId, shardId)) cursor listed)
    (hfinish : router.finishAdvance graphId shardId cursor listed = (router', result, ack)) :
    Advances history router router' ∧
      ∀ throughSeq ∈ ack, throughSeq ≤ router'.cursor (graphId, shardId) := by
  unfold Router.finishAdvance at hfinish
  split at hfinish
  · cases hfinish
    exact ⟨.refl h, fun _ hmem => (by cases hmem)⟩
  next hne =>
    obtain ⟨start, hstart, hbefore⟩ := hlisted
    by_cases heq : start = cursor
    · subst heq
      cases happly : Router.applyListed graphId shardId start 0 listed router with
      | mk final outcome =>
        obtain ⟨hadvances, hthrough⟩ := applyListed_advances hnumbered h hcursor hbefore happly
        rw [happly] at hfinish
        cases outcome with
        | ok done =>
          cases hfinish
          refine ⟨hadvances, ?_⟩
          rintro throughSeq hmem
          cases hmem
          exact hthrough done rfl
        | error error =>
          cases hfinish
          exact ⟨hadvances, fun _ hmem => (by cases hmem)⟩
    · -- Another call has acknowledged meanwhile: the first event listed is not the next one.
      cases listed with
      | nil => exact absurd rfl hne
      | cons event listed =>
        have hseq := hnumbered _ _ (head_of_drop hbefore).1
        have hgap : event.shardEventSeq ≠ cursor + 1 := by omega
        have hstop : ∃ error, Router.applyListed graphId shardId cursor 0 (event :: listed) router =
            (router, .error error) := by
          unfold Router.applyListed
          by_cases hexhausted : 2 ^ 64 ≤ cursor + 1
          · exact ⟨_, if_pos hexhausted⟩
          · rw [if_neg hexhausted, if_pos hgap]
            exact ⟨_, rfl⟩
        obtain ⟨error, herror⟩ := hstop
        rw [herror] at hfinish
        cases hfinish
        exact ⟨.refl h, fun _ hmem => (by cases hmem)⟩

end Finish

/-! ## The log -/

/-- The rows of a log that holds the history from some place on. -/
def rowsOf (events : List LabelStatsDeltaEvent) : List (Nat × LabelStatsDeltaEvent) :=
  events.map fun event => (event.shardEventSeq, event)

theorem filter_of_numbered {events : List LabelStatsDeltaEvent}
    (h : ∀ (i : Nat) (event : LabelStatsDeltaEvent),
      events[i]? = some event → event.shardEventSeq = start + i + 1) :
    events.filter (fun event => m < event.shardEventSeq) = events.drop (m - start) := by
  induction events generalizing start with
  | nil => simp
  | cons event events ih =>
    have hseq : event.shardEventSeq = start + 1 := by simpa using h 0 event rfl
    have hrest : events.filter (fun event => m < event.shardEventSeq) =
        events.drop (m - (start + 1)) := ih fun i other hother => by
      have := h (i + 1) other (by simpa using hother)
      omega
    by_cases hm : m ≤ start
    · rw [filter_cons_of_pos (by simp; omega), hrest, show m - start = 0 by omega,
        show m - (start + 1) = 0 by omega, drop_zero, drop_zero]
    · rw [filter_cons_of_neg (by simp; omega), hrest,
        show m - start = m - (start + 1) + 1 by omega, drop_succ_cons]

/-- The rows behind a number are the history behind it. -/
theorem filter_rowsOf {history : List LabelStatsDeltaEvent} (h : Numbered history) (acked m : Nat) :
    (rowsOf (history.drop acked)).filter (fun row => m < row.1) =
      rowsOf (history.drop (max acked m)) := by
  have hfilter : (history.drop acked).filter (fun event => m < event.shardEventSeq) =
      history.drop (max acked m) := by
    have hdrop : (history.drop acked).filter (fun event => m < event.shardEventSeq) =
        (history.drop acked).drop (m - acked) := filter_of_numbered fun i event hevent => by
      rw [getElem?_drop] at hevent
      exact h _ _ hevent
    rw [hdrop, drop_drop]
    congr 1
    omega
  rw [rowsOf, filter_map, ← hfilter]
  rfl

/-! ## The system -/

/-- A call has been started at or before the durable cursor, and has been
answered from the history. -/
def CallSound (router : Router G S) (history : G × S → List LabelStatsDeltaEvent) (call : Call G S) :
    Prop :=
  call.cursor ≤ router.cursor call.key ∧
    ∀ listed, call.reply = some listed → Answered (history call.key) call.cursor listed

structure Sound [Fintype E] (sys : System G S E) : Prop where
  numbered : ∀ key, Numbered (sys.history key)
  seq : ∀ key, (sys.shards key).seq = (sys.history key).length
  log : ∀ key, ∃ acked ≤ sys.router.cursor key,
    (sys.shards key).log.rows = rowsOf ((sys.history key).drop acked)
  projected : Projected sys.router sys.history
  acks : ∀ ack ∈ sys.acks, ack.2 ≤ sys.router.cursor ack.1
  calls : ∀ call ∈ sys.calls, CallSound sys.router sys.history call
  elements : ∀ key label,
    sumOf label (changesOf (sys.history key)) = ElementChange.count (sys.elements key) label
  within : ∀ key, Within (Fintype.card E) (changesOf (sys.history key))

open LabelProjection.System

variable [Fintype E]

theorem fresh_sound : Sound (fresh : System G S E) where
  numbered _ i event h := by simp [fresh] at h
  seq _ := rfl
  log _ := ⟨0, le_rfl, rfl⟩
  projected _ := ⟨le_rfl, rfl⟩
  acks _ h := by simp [fresh] at h
  calls _ h := by simp [fresh] at h
  elements _ _ := rfl
  within _ label part hpart := by
    obtain rfl : part = [] := prefix_nil.mp hpart
    exact ⟨le_rfl, Int.natCast_nonneg _⟩

/-- A call replaced by one with the same key and cursor. -/
theorem Sound.set_call {sys : System G S E} (h : Sound sys)
    (hcall : CallSound sys.router sys.history call) :
    Sound { sys with calls := sys.calls.set index call } :=
  { h with
    calls other hother := by
      rcases mem_or_eq_of_mem_set hother with hold | rfl
      · exact h.calls other hold
      · exact hcall }

section Step

variable {event : LabelStatsDeltaEvent} {sys : System G S E}

/-- Later events do not change what was answered. -/
theorem Answered.append {history : List LabelStatsDeltaEvent} (h : Answered history cursor listed)
    (more : List LabelStatsDeltaEvent) : Answered (history ++ more) cursor listed := by
  obtain ⟨start, hstart, hbefore⟩ := h
  refine ⟨start, hstart, hbefore.trans ?_⟩
  rw [drop_append]
  exact prefix_append _ _

/-- A new event stands behind all others. -/
theorem insert_rowsOf {log : SeqMap LabelStatsDeltaEvent} (hrows : log.rows = rowsOf events)
    (hlast : ∀ other ∈ events, other.shardEventSeq < event.shardEventSeq) :
    (log.insert event.shardEventSeq event).rows = rowsOf (events ++ [event]) := by
  have hbefore : (rowsOf events).filter (fun row => row.1 < event.shardEventSeq) = rowsOf events := by
    refine filter_eq_self.mpr fun row hrow => ?_
    obtain ⟨other, hother, rfl⟩ := mem_map.mp hrow
    simpa using hlast other hother
  have hbehind : (rowsOf events).filter (fun row => event.shardEventSeq < row.1) = [] := by
    refine filter_eq_nil_iff.mpr fun row hrow => ?_
    obtain ⟨other, hother, rfl⟩ := mem_map.mp hrow
    simpa using (hlast other hother).le
  simp only [SeqMap.insert, hrows, hbefore, hbehind]
  simp [rowsOf]

theorem Numbered.append {history : List LabelStatsDeltaEvent} (h : Numbered history)
    (hseq : event.shardEventSeq = history.length + 1) :
    Numbered (history ++ [event]) := by
  intro i found hfound
  by_cases hi : i < history.length
  · rw [List.getElem?_append_left hi] at hfound
    exact h i found hfound
  obtain rfl : i = history.length := by
    have := (List.getElem?_eq_some_iff.mp hfound).1
    simp only [List.length_append, List.length_singleton] at this
    omega
  simp only [List.getElem?_concat_length, Option.some.injEq] at hfound
  rw [← hfound, hseq]

/-- What the shard lists is the history behind the call's cursor. -/
theorem listFrom_answered (h : Sound sys) (key : G × S) (cursor limit : Nat) :
    Answered (sys.history key) cursor ((sys.shards key).listFrom (cursor + 1) limit) := by
  obtain ⟨acked, -, hrows⟩ := h.log key
  refine ⟨max acked cursor, le_max_right _ _, ?_⟩
  have hfilter : (sys.shards key).log.rows.filter (fun row => cursor + 1 ≤ row.1) =
      rowsOf ((sys.history key).drop (max acked cursor)) := by
    rw [hrows]
    exact filter_rowsOf (h.numbered key) acked cursor
  have hlisted : ∀ events : List LabelStatsDeltaEvent, (rowsOf events).map (·.2) = events := by
    intro events
    rw [rowsOf, map_map]
    exact map_id events
  rw [DeltaLog.listFrom, hfilter, map_take, hlisted]
  exact take_prefix _ _

/-- A mutation moves the sums of its labels from the numbers of elements before to
those behind it, each in one change. -/
theorem within_append (h : Sound sys) {key : G × S} {delta : LabelStatsDelta}
    {alive : Finset (Label × E)} (hmerged : delta.Merged) (hdelta : ∀ label, sumOf label delta.changes =
      (ElementChange.count alive label : Int) - ElementChange.count (sys.elements key) label) :
    Within (Fintype.card E) (changesOf (sys.history key) ++ delta.changes) := by
  intro label part hpart
  rcases prefix_or_prefix_of_prefix hpart (prefix_append _ _) with hold | ⟨new, rfl⟩
  · exact h.within key label part hold
  have hnew := (prefix_append_right_inj _).mp hpart
  have hbefore := ElementChange.count_le (sys.elements key) label
  have hbehind := ElementChange.count_le alive label
  have hsum := h.elements key label
  have := hdelta label
  rw [sumOf_append]
  rcases sumOf_of_isPrefix hnew hmerged.changes label with heq | heq <;> omega

variable [DecidableEq G] [DecidableEq S]

/-- An append of such a difference keeps the invariant: the event stands behind all others, in
the history and in the log. -/
theorem append_sound (h : Sound sys) {key : G × S} {delta : LabelStatsDelta}
    (hmerged : delta.Merged) (hdelta : ∀ label, sumOf label delta.changes =
      (ElementChange.count alive label : Int) - ElementChange.count (sys.elements key) label)
    (happend : (sys.shards key).commitAppend mutationId delta = .ok (shard, event)) :
    Sound { sys with
      shards := update sys.shards key shard
      history := update sys.history key (sys.history key ++ [event])
      elements := update sys.elements key alive } := by
  unfold DeltaLog.commitAppend at happend
  split at happend
  · cases happend
  obtain ⟨hshard, hevent⟩ := Prod.mk.inj (Except.ok.inj happend)
  have hlength := h.seq key
  have hseq : event.shardEventSeq = (sys.history key).length + 1 := by rw [← hevent, ← hlength]
  have hbounds := (h.projected key).1
  have hchanges : changesOf (sys.history key ++ [event]) =
      changesOf (sys.history key) ++ delta.changes := by
    rw [changesOf_append, ← hevent]
    simp [changesOf]
  exact {
    numbered := (forall_update_iff _ fun _ events => Numbered events).mpr
      ⟨(h.numbered key).append hseq, fun other _ => h.numbered other⟩
    seq := by
      intro other
      by_cases hother : other = key
      · subst hother
        simp only [update_self, ← hshard, length_append, length_singleton, hlength]
      · simp only [update_of_ne hother]
        exact h.seq other
    log := by
      intro other
      obtain ⟨acked, hacked, hrows⟩ := h.log other
      refine ⟨acked, hacked, ?_⟩
      by_cases hother : other = key
      · subst hother
        simp only [update_self]
        have hlast : ∀ old ∈ (sys.history other).drop acked,
            old.shardEventSeq < event.shardEventSeq := by
          intro old hold
          obtain ⟨i, hi⟩ := mem_iff_getElem?.mp (mem_of_mem_drop hold)
          have hlt := (List.getElem?_eq_some_iff.mp hi).1
          rw [h.numbered other i old hi, hseq]
          omega
        rw [drop_append_of_le_length (by omega), ← insert_rowsOf hrows hlast, ← hshard, ← hevent]
      · simp only [update_of_ne hother]
        exact hrows
    projected := by
      refine (forall_update_iff sys.history fun other events =>
        sys.router.cursor other ≤ events.length ∧
          sys.router.applied other = events.take (sys.router.cursor other)).mpr
            ⟨⟨?_, ?_⟩, fun other _ => h.projected other⟩
      · simp only [length_append]
        omega
      · rw [take_append_of_le_length hbounds]
        exact (h.projected key).2
    acks := h.acks
    calls := by
      intro call hcall
      obtain ⟨hcursor, hanswered⟩ := h.calls call hcall
      refine ⟨hcursor, fun listed hlisted => ?_⟩
      by_cases hother : call.key = key
      · simp only [hother, update_self]
        exact Answered.append (hother ▸ hanswered listed hlisted) _
      · simp only [update_of_ne hother]
        exact hanswered listed hlisted
    elements := by
      intro other
      by_cases hother : other = key
      · subst hother
        intro label
        have := h.elements other label
        have := hdelta label
        simp only [update_self, hchanges, sumOf_append]
        omega
      · simp only [update_of_ne hother]
        exact h.elements other
    within := by
      refine (forall_update_iff sys.history fun _ events =>
        Within (Fintype.card E) (changesOf events)).mpr ⟨?_, fun other _ => h.within other⟩
      rw [hchanges]
      exact within_append h hmerged hdelta }

/-- Elements that come and go within a mutation leave the sums as they are. -/
theorem elements_sound (h : Sound sys) {key : G × S} (hsame : ∀ label,
    ElementChange.count alive label = ElementChange.count (sys.elements key) label) :
    Sound { sys with elements := update sys.elements key alive } :=
  { h with
    elements other label := by
      rw [h.elements other label]
      by_cases hother : other = key
      · subst hother
        simp only [update_self, hsame]
      · simp only [update_of_ne hother] }

/-- A mutation appends the difference it makes. -/
theorem mutation_sound [DecidableEq E] (h : Sound sys) {key : G × S}
    {changes : List (ElementChange E)}
    (happly : changes.foldlM ElementChange.apply (sys.elements key) = some alive) :
    Sound (sys.append key mutationId (changes.foldl ElementChange.record .empty) alive) ∧
      (sys.append key mutationId (changes.foldl ElementChange.record .empty) alive).router =
        sys.router := by
  have hempty : LabelStatsDelta.empty.Merged := ⟨nodup_nil, nodup_nil⟩
  obtain ⟨hmerged, hdelta⟩ := ElementChange.record_spec hempty happly
  have hnothing : ∀ label, sumOf label LabelStatsDelta.empty.changes = 0 := fun _ => rfl
  simp only [hnothing, sub_zero] at hdelta
  unfold System.append
  split_ifs with hzero
  · refine ⟨elements_sound h fun label => ?_, rfl⟩
    have := hdelta label
    rw [hzero, hnothing] at this
    omega
  split
  · exact ⟨h, rfl⟩
  next happend => exact ⟨append_sound h hmerged hdelta happend, rfl⟩

/-- An acknowledgement never removes what the durable cursor has not passed. -/
theorem ack_sound (h : Sound sys) (hack : (key, throughSeq) ∈ sys.acks) :
    Sound { sys with
      shards := update sys.shards key ((sys.shards key).removeThrough throughSeq) } := by
  refine ⟨h.numbered, ?_, ?_, h.projected, h.acks, h.calls, h.elements, h.within⟩
  · exact (forall_update_iff sys.shards fun other shard =>
      shard.seq = (sys.history other).length).mpr ⟨h.seq key, fun other _ => h.seq other⟩
  refine (forall_update_iff sys.shards fun other shard =>
    ∃ acked ≤ sys.router.cursor other,
      shard.log.rows = rowsOf ((sys.history other).drop acked)).mpr ⟨?_, fun other _ => h.log other⟩
  obtain ⟨acked, hacked, hrows⟩ := h.log key
  refine ⟨max acked throughSeq, max_le hacked (h.acks _ hack), ?_⟩
  rw [← filter_rowsOf (h.numbered key), ← hrows]
  rfl

variable [ToString S]

/-- The answer may come late: only the events that the durable cursor has not passed meanwhile
are applied. -/
theorem resume_sound (h : Sound sys) (hcall : CallSound sys.router sys.history call)
    (hreply : call.reply = some deltas) :
    Sound (sys.resume index call deltas) ∧
      ∀ [Fintype S], Fintype.card S * Fintype.card E < 2 ^ 64 → Counted sys.router →
        Counted (sys.resume index call deltas).router := by
  cases hfinish : sys.router.finishAdvance call.key.1 call.key.2 call.cursor deltas with
  | mk router rest =>
    obtain ⟨result, ack⟩ := rest
    obtain ⟨⟨hprojected, hmono, hcounts⟩, hack⟩ := finishAdvance_advances (h.numbered call.key)
      h.projected hcall.1 (hcall.2 deltas hreply) hfinish
    have hresume : sys.resume index call deltas =
        { sys with
          router
          calls := sys.calls.set index { call with finished := true }
          acks := sys.acks ++ ack.toList.map fun throughSeq => (call.key, throughSeq) } := by
      rw [System.resume, hfinish]
    rw [hresume]
    refine ⟨⟨h.numbered, h.seq, fun key => ?_, hprojected, fun sent hsent => ?_,
      fun other hother => ?_, h.elements, h.within⟩, fun hroom => hcounts ⟨h.within, hroom⟩⟩
    · obtain ⟨acked, hacked, hrows⟩ := h.log key
      exact ⟨acked, hacked.trans (hmono key), hrows⟩
    · rcases mem_append.mp hsent with hold | hnew
      · exact (h.acks sent hold).trans (hmono _)
      · obtain ⟨throughSeq, hthrough, rfl⟩ := mem_map.mp hnew
        exact hack throughSeq (Option.mem_toList.mp hthrough)
    · rcases mem_or_eq_of_mem_set hother with hold | rfl
      · exact ⟨(h.calls other hold).1.trans (hmono _), (h.calls other hold).2⟩
      · exact ⟨hcall.1.trans (hmono _), hcall.2⟩

variable [DecidableEq E]

/-- An event keeps the invariant, and counts exactly what it applies. -/
theorem step_sound (h : Sound sys) (event : ProjectionEvent G S E) :
    Sound (sys.step event) ∧
      ∀ [Fintype S], Fintype.card S * Fintype.card E < 2 ^ 64 → Counted sys.router →
        Counted (sys.step event).router := by
  have hkeep : ∀ [Fintype S], Fintype.card S * Fintype.card E < 2 ^ 64 → Counted sys.router →
      Counted sys.router :=
    fun _ hcounted => hcounted
  unfold step
  cases event with
  | append key mutationId changes =>
    dsimp only
    split
    · exact ⟨h, hkeep⟩
    next happly =>
      obtain ⟨hsound, hrouter⟩ := mutation_sound h happly
      exact ⟨hsound, hrouter ▸ hkeep⟩
  | advance key limit =>
    dsimp only
    split
    · exact ⟨h, hkeep⟩
    next cursor hstart =>
    refine ⟨{ h with calls := fun call hcall => ?_ }, hkeep⟩
    rcases mem_append.mp hcall with hold | hnew
    · exact h.calls call hold
    obtain rfl := mem_singleton.mp hnew
    unfold Router.startAdvance at hstart
    split at hstart
    · cases hstart
    split at hstart
    · cases hstart
    · cases hstart
      exact ⟨le_rfl, fun _ hlisted => by cases hlisted⟩
  | list index =>
    dsimp only
    split
    · exact ⟨h, hkeep⟩
    next call hcall =>
    split
    · exact ⟨h, hkeep⟩
    refine ⟨h.set_call ⟨(h.calls call (mem_of_getElem? hcall)).1, ?_⟩, hkeep⟩
    intro listed hlisted
    cases hlisted
    exact listFrom_answered h call.key call.cursor call.limit
  | reply index =>
    dsimp only
    split
    · exact ⟨h, hkeep⟩
    next call hcall =>
    split
    next deltas hreply hfinished =>
      exact resume_sound h (h.calls call (mem_of_getElem? hcall)) hreply
    next => exact ⟨h, hkeep⟩
  | fail index =>
    dsimp only
    split
    · exact ⟨h, hkeep⟩
    next call hcall =>
      exact ⟨h.set_call (h.calls call (mem_of_getElem? hcall)), hkeep⟩
  | ack index =>
    dsimp only
    split
    · exact ⟨h, hkeep⟩
    next hack => exact ⟨ack_sound h (mem_of_getElem? hack), hkeep⟩

end Step

/-! ## Runs -/

section Run

variable [DecidableEq G] [DecidableEq S] [DecidableEq E] [ToString S]

/-- A run keeps the invariant, and counts exactly what it has applied. -/
theorem run_sound (events : List (ProjectionEvent G S E)) :
    Sound (events.foldl step .fresh) ∧
      ∀ [Fintype S], Fintype.card S * Fintype.card E < 2 ^ 64 →
        Counted (events.foldl step .fresh).router := by
  refine List.foldlRecOn (motive := fun sys => Sound sys ∧ ∀ [Fintype S],
    Fintype.card S * Fintype.card E < 2 ^ 64 → Counted sys.router) events step ?_
      fun sys ⟨hsound, hcounted⟩ event _ => ?_
  · exact ⟨fresh_sound, fun _ => ⟨fun _ _ _ => rfl, fun _ _ => by simp [fresh, Router.empty]⟩⟩
  · obtain ⟨hnext, hcounts⟩ := step_sound hsound event
    exact ⟨hnext, fun hroom => hcounts hroom (hcounted hroom)⟩

/-- In every state of a run the router has applied the events of each shard up
to its durable cursor, each once and in order, and the log of the shard still
has the others.  The counts are the sums of the applied events: a shard has room
for the elements of `E`, and the room of all shards together is within `i64`. -/
theorem projection_exactly_once [Fintype S] (hroom : Fintype.card S * Fintype.card E < 2 ^ 63)
    (events : List (ProjectionEvent G S E)) :
    let sys : System G S E := events.foldl System.step .fresh
    (∀ key,
      Numbered (sys.history key) ∧
      sys.router.cursor key ≤ (sys.history key).length ∧
      sys.router.applied key = (sys.history key).take (sys.router.cursor key) ∧
      ∀ event ∈ (sys.history key).drop (sys.router.cursor key),
        (event.shardEventSeq, event) ∈ (sys.shards key).log.rows) ∧
    ∀ graphId label,
      (∀ shardId, (sys.router.live (graphId, shardId, label) : Int) =
        sumOf label (changesOf ((sys.history (graphId, shardId)).take
          (sys.router.cursor (graphId, shardId))))) ∧
      (sys.router.stats (graphId, label)).liveCount =
        ∑ shardId, sys.router.live (graphId, shardId, label) := by
  intro sys
  obtain ⟨hsound, hcounted⟩ := run_sound events
  constructor
  · intro key
    obtain ⟨hcursor, happlied⟩ := hsound.projected key
    refine ⟨hsound.numbered key, hcursor, happlied, fun event hmem => ?_⟩
    obtain ⟨acked, hacked, hrows⟩ := hsound.log key
    rw [hrows, rowsOf]
    exact mem_map.mpr ⟨event, (drop_sublist_drop_left _ hacked).subset hmem, rfl⟩
  intro graphId label
  have hcounts := hcounted (hroom.trans (by decide))
  refine ⟨fun shardId => ?_, hcounts.graph graphId label⟩
  have hlive := hcounts.live graphId shardId label
  rw [(hsound.projected (graphId, shardId)).2] at hlive
  exact hlive

/-- Two calls hold the same cursor; the first acknowledges what it has applied before
the second is answered, and its acknowledgement comes again at the end. -/
def overlapping : List (ProjectionEvent Unit (Fin 2) (Fin 8)) :=
  [.append ((), 0) 1 [.inserted (.vertex 3) 0, .inserted (.vertex 3) 1, .inserted (.edge 5) 0],
    .append ((), 1) 2 [.inserted (.vertex 3) 0],
    .advance ((), 0) 1, .advance ((), 0) 10, .list 0,
    .append ((), 0) 3 [.removed (.vertex 3) 0, .inserted (.vertex 3) 2, .removed (.vertex 3) 1],
    .list 1, .reply 1, .reply 0, .ack 0, .advance ((), 1) 10, .list 2, .reply 2, .ack 1, .ack 0]

theorem projection_exactly_once_overlapping :
    let sys := overlapping.foldl System.step .fresh
    (sys.router.live ((), 0, .vertex 3) : Int) = 1 ∧
      (sys.router.stats ((), .vertex 3)).liveCount = 2 := by
  obtain ⟨-, hcounts⟩ := projection_exactly_once (by decide) overlapping
  obtain ⟨hlive, hgraph⟩ := hcounts () (.vertex 3)
  have hfirst := hlive 0
  have hsecond := hlive 1
  have hsums : sumOf (.vertex 3) (changesOf (((overlapping.foldl System.step .fresh).history
      ((), 0)).take ((overlapping.foldl System.step .fresh).router.cursor ((), 0)))) = 1 ∧
    sumOf (.vertex 3) (changesOf (((overlapping.foldl System.step .fresh).history
      ((), 1)).take ((overlapping.foldl System.step .fresh).router.cursor ((), 1)))) = 1 := by
    decide +kernel
  rw [hsums.1] at hfirst
  rw [hsums.2] at hsecond
  rw [Fin.sum_univ_two] at hgraph
  exact ⟨hfirst, hgraph.trans (by omega)⟩

end Run

end Gleaph.LabelProjection
