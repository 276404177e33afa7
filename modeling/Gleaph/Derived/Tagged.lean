import Gleaph.Derived.Flush
import Gleaph.Derived.Acknowledge

/-!
# Gleaph.Derived.Tagged

The durable queues with a tag on each row: which mutation's posting it holds.

The tags follow the rows and decide nothing.  `TaggedStore.Sound` is what the
floor rests on: the floor is exact, and a row that holds a posting of a tracked
mutation is filed under that mutation's id.  An append keeps it only if the
postings belong to the mutation they are appended for; a drain always keeps it,
and what it takes away is what the index reported as applied.
-/

namespace Gleaph

open Function List

/-- A mutation and the number of one of its postings. -/
abbrev PostingTag := Nat × Nat

/-- The tag of a row no one asks about. -/
def PostingTag.untracked : PostingTag := (0, 0)

structure TaggedStore where
  store : DerivedIndexStore
  tags : DurableQueue → Nat → PostingTag

section

variable (q : DurableQueue) (mutationId : Nat) (op : RepairPostingOp)

/-- The row that an append writes. -/
def durableRow : DurableRow :=
  match q with
  | .repairJournal => .repairJournal ⟨mutationId, op⟩
  | .derivedIndexOutbox => .derivedIndexOutbox (.pending ⟨mutationId, .ordinary op⟩)

@[simp] theorem durableRow_mutationId : (durableRow q mutationId op).mutationId = mutationId := by
  cases q <;> rfl

@[simp] theorem durableRow_op : (durableRow q mutationId op).op = .ordinary op := by
  cases q <;> rfl

end

/-- Both queues append in the same way, each with rows of its own kind. -/
theorem appendTo_eq (q : DurableQueue) (store : DerivedIndexStore) (mutationId : Nat)
    (ops : List RepairPostingOp) :
    store.appendTo q mutationId ops = store.append q q.what (ops.map (durableRow q mutationId)) := by
  cases q <;> rfl

/-- Tag the new rows: the postings come first, what is behind them has no
owner. -/
def tagNew (tags : Nat → PostingTag) : List (Nat × DurableRow) → List QueuedPosting → Nat → PostingTag
  | [], _ => tags
  | row :: new, [] => update (tagNew tags new []) row.1 .untracked
  | row :: new, x :: xs => update (tagNew tags new xs) row.1 x.tag

namespace TaggedStore

/-- Append postings, and vector operations behind them, for a mutation; `none`
is a trap. -/
def append (q : DurableQueue) (t : TaggedStore) (mutationId : Nat) (postings : List QueuedPosting)
    (vectors : List VectorEmbeddingSyncOp) : Option TaggedStore :=
  match t.store.appendTo q mutationId
      (postings.map (·.op) ++ vectors.map RepairPostingOp.vectorEmbedding) with
  | .error _ => none
  | .ok store => some ⟨store, update t.tags q
      (tagNew (t.tags q) ((store.rows q).drop (t.store.rows q).length) postings)⟩

/-- The posting waits in a durable queue. -/
def Stored (t : TaggedStore) (tag : PostingTag) : Prop :=
  ∃ q, ∃ row ∈ t.store.rows q, t.tags q row.1 = tag

/-- The floor is exact, and every posting of a tracked mutation is filed under
its id. -/
structure Sound (t : TaggedStore) : Prop where
  floor : t.store.FloorExact
  filed : ∀ q, ∀ row ∈ t.store.rows q, (t.tags q row.1).1 ≠ 0 →
    row.2.mutationId = (t.tags q row.1).1 ∧ row.2.op.isPosting = true

/-- While a posting of a tracked mutation is stored, the pending minimum is at
most the mutation's id. -/
theorem Sound.min_le {t : TaggedStore} (ht : t.Sound) (hstored : t.Stored tag)
    (htracked : tag.1 ≠ 0) : ∃ min, t.store.indexPendingMinMutationId = some min ∧ min ≤ tag.1 := by
  obtain ⟨q, row, hrow, rfl⟩ := hstored
  obtain ⟨hfiled, hposting⟩ := ht.filed q row hrow htracked
  have hordinary : row.2.op.isOrdinary := by
    rcases hop : row.2.op with op | request
    · rfl
    · simp [hop, DurableOp.isPosting] at hposting
  let key : IndexPendingFloorKey := ⟨row.2.mutationId, q, row.1, hfiled ▸ htracked⟩
  have hkey : key ∈ t.store.floor :=
    (ht.floor key).mpr ⟨row.2, hrow, trackedFloorKey_eq_some.mpr ⟨hordinary, rfl, rfl, rfl⟩⟩
  have hmem : (t.tags q row.1).1 ∈ t.store.floor.image (·.mutationId) :=
    Finset.mem_image.mpr ⟨key, hkey, hfiled⟩
  obtain ⟨min, hmin⟩ := Finset.min_of_mem hmem
  exact ⟨min, hmin, WithTop.coe_le_coe.mp (hmin ▸ Finset.min_le hmem)⟩

/-! ## Appends -/

variable {new : List (Nat × DurableRow)} {xs : List QueuedPosting}

/-- Rows that are not new keep their tags. -/
theorem tagNew_of_not_mem {tags : Nat → PostingTag} {sequence : Nat}
    (h : ∀ row ∈ new, row.1 ≠ sequence) :
    tagNew tags new xs sequence = tags sequence := by
  induction new generalizing xs with
  | nil => rfl
  | cons row new ih =>
    have hne : sequence ≠ row.1 := fun heq => h row (by simp) heq.symm
    have htail : ∀ xs, tagNew tags new xs sequence = tags sequence := fun xs =>
      ih fun row hrow => h row (by simp [hrow])
    cases xs with
    | nil => simp only [tagNew, update_of_ne hne, htail]
    | cons x xs => simp only [tagNew, update_of_ne hne, htail]

/-- A new row with an owner holds that owner's posting. -/
theorem tagNew_owned {tags : Nat → PostingTag} (hsorted : new.Pairwise fun x y => x.1 < y.1)
    (hnew : new.map (·.2) = xs.map (fun x => durableRow q mutationId x.op) ++ others)
    (hrow : row ∈ new) (htracked : (tagNew tags new xs row.1).1 ≠ 0) :
    ∃ x ∈ xs, tagNew tags new xs row.1 = x.tag ∧ row.2 = durableRow q mutationId x.op := by
  induction new generalizing xs others with
  | nil => cases hrow
  | cons head new ih =>
    obtain ⟨hlt, hsorted⟩ := pairwise_cons.mp hsorted
    cases xs with
    | nil =>
      rcases mem_cons.mp hrow with rfl | hrow
      · simp [tagNew, PostingTag.untracked] at htracked
      have hne : row.1 ≠ head.1 := (hlt row hrow).ne'
      simp only [tagNew, update_of_ne hne] at htracked ⊢
      exact @ih [] (new.map (·.2)) hsorted (by simp) hrow htracked
    | cons x xs =>
      rw [map_cons, map_cons, cons_append, List.cons.injEq] at hnew
      rcases mem_cons.mp hrow with rfl | hrow
      · exact ⟨x, by simp, by simp [tagNew], hnew.1⟩
      have hne : row.1 ≠ head.1 := (hlt row hrow).ne'
      simp only [tagNew, update_of_ne hne] at htracked ⊢
      obtain ⟨x', hx', htag, hrow'⟩ := ih hsorted hnew.2 hrow htracked
      exact ⟨x', by simp [hx'], htag, hrow'⟩

/-- Every posting has a new row. -/
theorem exists_tagNew (tags : Nat → PostingTag) (hsorted : new.Pairwise fun x y => x.1 < y.1)
    (hnew : new.map (·.2) = xs.map (fun x => durableRow q mutationId x.op) ++ others) (hx : x ∈ xs) :
    ∃ row ∈ new, tagNew tags new xs row.1 = x.tag := by
  induction new generalizing xs with
  | nil => cases xs with
    | nil => cases hx
    | cons x xs => simp at hnew
  | cons head new ih =>
    obtain ⟨hlt, hsorted⟩ := pairwise_cons.mp hsorted
    cases xs with
    | nil => cases hx
    | cons x' xs =>
      rw [map_cons, map_cons, cons_append, List.cons.injEq] at hnew
      rcases mem_cons.mp hx with rfl | hx
      · exact ⟨head, by simp, by simp [tagNew]⟩
      obtain ⟨row, hrow, htag⟩ := ih hsorted hnew.2 hx
      refine ⟨row, by simp [hrow], ?_⟩
      rw [tagNew, update_of_ne (hlt row hrow).ne', htag]

/-- What an append does: all that was stored stays, the postings are stored,
and the store stays sound if they belong to the mutation. -/
structure Appended (t t' : TaggedStore) (postings : List QueuedPosting) : Prop where
  stays : ∀ q, t.store.rows q ⊆ t'.store.rows q
  kept : ∀ tag, t.Stored tag → t'.Stored tag
  stored : ∀ x ∈ postings, t'.Stored x.tag

/-- An append adds the postings' tags and keeps the store sound. -/
theorem append_appended {t t' : TaggedStore} (h : t.append q mutationId postings vectors = some t') :
    t.Appended t' postings ∧ (t.Sound → (∀ x ∈ postings, x.owner = 0 ∨ x.owner = mutationId) →
      t'.Sound) := by
  unfold append at h
  rw [appendTo_eq] at h
  split at h
  · cases h
  next store hstore =>
    cases h
    obtain ⟨new, hrows, hentries, hbehind, -, hother, -, -⟩ := DerivedIndexStore.append_spec hstore
    have hdrop : (store.rows q).drop (t.store.rows q).length = new := by
      rw [hrows, drop_left]
    have hsublist : new.Sublist (store.rows q) := hrows ▸ sublist_append_right _ _
    have hsorted : new.Pairwise fun x y => x.1 < y.1 := (store.queues q).sorted.sublist hsublist
    rw [map_append, map_map] at hentries
    -- the tags of the rows that were there are untouched
    have hold : ∀ row ∈ t.store.rows q, tagNew (t.tags q) new postings row.1 = t.tags q row.1 :=
      fun row hrow => tagNew_of_not_mem fun row' hrow' => (hbehind row hrow row' hrow').ne'
    refine ⟨⟨fun q' => ?_, fun tag hstored => ?_, fun x hx => ?_⟩, fun ht howned => ⟨?_, ?_⟩⟩
    · by_cases hq : q' = q
      · subst hq
        rw [hrows]
        exact subset_append_left _ _
      · rw [hother q' hq]
        exact List.Subset.refl _
    · obtain ⟨q', row, hrow, rfl⟩ := hstored
      by_cases hq : q' = q
      · subst hq
        refine ⟨q', row, hrows ▸ mem_append_left _ hrow, ?_⟩
        simp only [update_self, hdrop, hold row hrow]
      · refine ⟨q', row, by rwa [hother q' hq], ?_⟩
        simp only [update_of_ne hq]
    · obtain ⟨row, hrow, htag⟩ := exists_tagNew (t.tags q) hsorted hentries hx
      refine ⟨q, row, hrows ▸ mem_append_right _ hrow, ?_⟩
      simpa only [update_self, hdrop] using htag
    · exact ht.floor.append hstore
    · intro q' row hrow htracked
      by_cases hq : q' = q
      · subst hq
        simp only [update_self, hdrop] at htracked ⊢
        rw [hrows] at hrow
        rcases mem_append.mp hrow with hrow | hrow
        · rw [hold row hrow] at htracked ⊢
          exact ht.filed q' row hrow htracked
        obtain ⟨x, hx, htag, hrow'⟩ := tagNew_owned hsorted hentries hrow htracked
        rw [htag] at htracked ⊢
        rw [hrow', durableRow_mutationId, durableRow_op]
        exact ⟨((howned x hx).resolve_left htracked).symm, x.posting⟩
      · simp only [update_of_ne hq] at htracked ⊢
        rw [hother q' hq] at hrow
        exact ht.filed q' row hrow htracked

/-! ## Replies to a drain -/

/-- The tags of the postings a reply to a pass reports as applied. -/
def reported (t : TaggedStore) (pass : SuspendedPass) (reply : Reply) : List PostingTag :=
  (pass.await.reported reply).map fun entry => t.tags pass.queue entry.1

/-- Resuming a pass keeps the store sound, and what it no longer stores was
reported by the reply. -/
theorem resume_sound {t : TaggedStore} {pass : SuspendedPass} {store : DerivedIndexStore}
    {status : DrainStatus} (ht : t.Sound) (hpass : pass.Held pass.queue t.store)
    (h : resume pass.clients pass.queue t.store pass.await pass.rest reply = .ok (store, status)) :
    ({ t with store } : TaggedStore).Sound ∧
      (∀ tag, tag.1 ≠ 0 → t.Stored tag →
        ({ t with store } : TaggedStore).Stored tag ∨ tag ∈ t.reported pass reply) ∧
      ∀ await rest, status = .suspended await rest →
        ({ pass with await, rest } : SuspendedPass).Held pass.queue store := by
  have hresumed := resume_cases hpass.sent h
  refine ⟨⟨hresumed.floorExact ht.floor, ?_⟩, ?_, ?_⟩
  · intro q row hrow htracked
    obtain ⟨old, hold, hnumber, hop, hid⟩ := hresumed.inherits q row hrow
    rw [← hop, ← hid]
    simp only [← hnumber] at htracked ⊢
    exact ht.filed q old hold htracked
  · rintro tag htracked ⟨q, row, hrow, rfl⟩
    by_cases hq : q = pass.queue
    · subst hq
      rcases hresumed.ends_or_acknowledges with ⟨rfl, -⟩ | hack
      · exact .inl ⟨_, row, hrow, rfl⟩
      by_cases hremoved : row.1 ∈ pass.await.removed reply
      · -- the row that goes is the posting the pass has sent
        obtain ⟨entry, hentry, hnumber⟩ := mem_map.mp hremoved
        have hunacked : entry ∈ pass.unacked :=
          mem_append_left _ (mem_of_mem_take hentry)
        have hop : row.2.op = entry.2 := hpass.op_eq hunacked (by rwa [hnumber])
        have hposting := (ht.filed _ row hrow htracked).2
        rw [hop] at hposting
        refine .inr (mem_map.mpr ⟨entry, mem_reported hack.count hentry hposting, ?_⟩)
        rw [hnumber]
      · obtain ⟨row', hrow', -⟩ := hack.stays row hrow hremoved
        exact .inl ⟨_, _, hrow', rfl⟩
    · exact .inl ⟨q, row, by rwa [hresumed.other_rows hq], rfl⟩
  · rintro await rest rfl
    rcases hresumed.ends_or_acknowledges with ⟨-, result, hstatus⟩ | hack
    · cases hstatus
    · exact hpass.acknowledged hack

end TaggedStore

end Gleaph
