import Gleaph.Backfill
import Gleaph.Build.Protocol

/-!
# Gleaph.Build.Invariant

What an online build keeps while it runs.

`BuildInv` says for every subject what the index holds of it (`Backfilled`: how
far the shard's changes are applied, and from when the page is that covered the
subject), and that the pages applied so far cover the subjects of the shards
before the current one, and of that one up to the cursor.  What happens at a
shard leaves it as it is (`WorldInv.evolve`).
-/

namespace Gleaph.Build

open Function GraphShard List

/-! ## Shards -/

namespace GraphShard

/-- The subject's value after the first changes. -/
def history (shard : GraphShard) (subject : IndexBuildSubject) (n : Nat) : Option (List UInt8) :=
  (shard.factsAt n).lookup subject

/-- One more change sets its own subject and leaves the others. -/
theorem history_succ {shard : GraphShard} {change : BuildChange}
    (h : shard.changes[n]? = some change) (subject : IndexBuildSubject) :
    shard.history subject (n + 1) =
      if subject = change.subject then change.new else shard.history subject n := by
  obtain ⟨hn, hchange⟩ := List.getElem?_eq_some_iff.mp h
  simp only [history, factsAt, take_succ_eq_append_getElem hn, foldl_append, hchange]
  exact Facts.lookup_set ..

/-- Later changes do not matter for what was before. -/
theorem factsAt_append {shard shard' : GraphShard} (hbase : shard'.base = shard.base)
    (hchanges : shard'.changes = shard.changes ++ more) (hn : n ≤ shard.changes.length) :
    shard'.factsAt n = shard.factsAt n := by
  simp [factsAt, hbase, hchanges, take_append_of_le_length hn]

/-- The shard's subjects are its own, and each change has the old value. -/
structure WellFormed (shard : GraphShard) (shardId : Nat) : Prop where
  own : ∀ subject ∈ shard.base, subject.shardId = shardId
  ownChange : ∀ change ∈ shard.changes, change.subject.shardId = shardId
  old : ∀ n change, shard.changes[n]? = some change → change.old = shard.history change.subject n
  unregistered : shard.phase = .unregistered → shard.changes = []

/-- A shard has facts about its own subjects only. -/
theorem WellFormed.own_fact {shard : GraphShard} (h : shard.WellFormed shardId)
    (hvalue : shard.history subject n = some value) : subject.shardId = shardId := by
  induction n generalizing value with
  | zero =>
    refine h.own subject (AList.lookup_isSome.mp ?_)
    have : shard.base.lookup subject = some value := by simpa [history, factsAt] using hvalue
    simp [this]
  | succ n ih =>
    cases hchange : shard.changes[n]? with
    | none =>
      have hlength := getElem?_eq_none_iff.mp hchange
      have hsame : shard.factsAt (n + 1) = shard.factsAt n := by
        simp [factsAt, take_of_length_le hlength, take_of_length_le (hlength.trans n.le_succ)]
      rw [history, hsame] at hvalue
      exact ih hvalue
    | some change =>
      rw [history_succ hchange] at hvalue
      split at hvalue
      next hsubject =>
        rw [hsubject]
        exact h.ownChange change (mem_of_getElem? hchange)
      · exact ih hvalue

/-- What may happen to a shard: before it is registered anything, afterwards
changes come at the end, and none once it is sealed. -/
def Evolves (shard shard' : GraphShard) : Prop :=
  shard.phase = .unregistered ∨
    (shard'.phase ≠ .unregistered ∧ shard'.base = shard.base ∧
      ∃ more, shard'.changes = shard.changes ++ more ∧
        (shard.phase = .sealing → more = [] ∧ shard'.phase = .sealing))

/-- No change has come between. -/
theorem Evolves.refl (shard : GraphShard) : Evolves shard shard := by
  by_cases h : shard.phase = .unregistered
  · exact .inl h
  · exact .inr ⟨h, rfl, [], by simp, fun hsealed => ⟨rfl, hsealed⟩⟩

/-- A change at the shard keeps it well formed and adds to its history. -/
theorem WellFormed.change {shard : GraphShard} (h : shard.WellFormed subject.shardId)
    (value : Option (List UInt8)) :
    (shard.change subject value).WellFormed subject.shardId ∧
      Evolves shard (shard.change subject value) := by
  unfold GraphShard.change
  split
  next hphase =>
    have hnil := h.unregistered hphase
    refine ⟨⟨fun subject' hmem => ?_, h.ownChange, by simp [hnil], h.unregistered⟩, .inl hphase⟩
    cases value with
    | none => exact h.own subject' (AList.mem_erase.mp hmem).2
    | some value =>
      rcases (AList.mem_insert _).mp hmem with rfl | hmem
      · rfl
      · exact h.own subject' hmem
  next hphase =>
    refine ⟨⟨h.own, ?_, ?_, fun hun => by simp_all⟩, .inr ⟨by simp [hphase], rfl, _, rfl, by simp [hphase]⟩⟩
    · intro change hchange
      rcases mem_append.mp hchange with hold | hnew
      · exact h.ownChange change hold
      · rw [mem_singleton.mp hnew]
    intro n change hchange
    have hn := (List.getElem?_eq_some_iff.mp hchange).1
    simp only [length_append, length_singleton] at hn
    have hle : n ≤ shard.changes.length := by omega
    simp only [history, factsAt, take_append_of_le_length hle]
    rcases Nat.lt_or_eq_of_le hle with hn | rfl
    · rw [getElem?_append_left hn] at hchange
      exact h.old n change hchange
    rw [getElem?_concat_length] at hchange
    cases hchange
    rfl
  next => exact ⟨h, .refl shard⟩

end GraphShard

/-! ## The invariant -/

section

variable {ρ : Type} [LinearOrder ρ] {env : BuildEnv ρ} {w : BuildWorld}

/-- What the index holds of a subject. -/
def BuildWorld.held (env : BuildEnv ρ) (w : BuildWorld) (subject : IndexBuildSubject) :
    Set (List UInt8) :=
  { value | posting env.registration.physicalIndexId env.registration.target.propertyId subject value ∈
    w.index.postings }

/-- The subject has an applied change. -/
def BuildWorld.Touched (env : BuildEnv ρ) (w : BuildWorld) (subject : IndexBuildSubject) : Prop :=
  (env.registration.physicalIndexId, subject) ∈ w.index.touched

/-- The invariant of a registered build; `seeded` tells how many changes the
shard had when the page was exported that has covered the subject. -/
structure BuildInv (env : BuildEnv ρ) (w : BuildWorld) (state : IndexBuildState)
    (seeded : IndexBuildSubject → Option Nat) : Prop where
  registration : state.registration env.registration.physicalIndexId = env.registration
  nodup : env.registration.targetShardIds.Nodup
  acked : ∀ shard ∈ state.shards,
    shard.acknowledgedThrough ≤ (w.shards shard.shardId).changes.length
  /-- What is held, subject by subject. -/
  backfilled : ∀ shard ∈ state.shards, ∀ subject, subject.shardId = shard.shardId →
    Backfilled ((w.shards shard.shardId).history subject) (w.Touched env subject)
      shard.acknowledgedThrough (seeded subject) (w.held env subject)
  exported : ∀ subject e, seeded subject = some e →
    (w.shards subject.shardId).phase ≠ .unregistered ∧
      e ≤ (w.shards subject.shardId).changes.length
  touched : ∀ subject, w.Touched env subject → (w.shards subject.shardId).phase ≠ .unregistered
  own : ∀ p ∈ w.index.postings, p.physicalIndexId = env.registration.physicalIndexId →
    ∃ shard ∈ state.shards, ∃ subject value, subject.shardId = shard.shardId ∧
      p = posting env.registration.physicalIndexId env.registration.target.propertyId subject value
  before : ∀ k shardId, env.registration.targetShardIds[k]? = some shardId →
    k < state.nextShardIndex → ∀ subject, subject.shardId = shardId → (seeded subject).isSome
  /-- The current shard is covered up to the cursor. -/
  within : ∀ k shardId, env.registration.targetShardIds[k]? = some shardId →
    k = state.nextShardIndex → ∀ subject, subject.shardId = shardId →
      ((seeded subject).isSome ↔ ¬env.Behind state.cursor subject)
  after : ∀ k shardId, env.registration.targetShardIds[k]? = some shardId →
    state.nextShardIndex < k → ∀ subject, subject.shardId = shardId → seeded subject = none
  frozen : ∀ epoch, state.lifecycle = .sealing epoch → ∀ shard ∈ state.shards,
    (w.shards shard.shardId).phase = .sealing ∧
      shard.sealTarget = some (w.shards shard.shardId).changes.length

/-- The page was exported from the shard after some of its changes. -/
def BuildWorld.PageSound (env : BuildEnv ρ) (w : BuildWorld) (exported : ExportedPage) : Prop :=
  (w.shards exported.pull.shardId).phase ≠ .unregistered ∧
    env.Advances exported.pull.expectedCursor exported.page.next ∧
    ∃ e ≤ (w.shards exported.pull.shardId).changes.length,
      exported.page = env.exportedPage ((w.shards exported.pull.shardId).factsAt e)
        exported.pull.expectedCursor exported.page.next

structure WorldInv (env : BuildEnv ρ) (w : BuildWorld) : Prop where
  shards : ∀ shardId, (w.shards shardId).WellFormed shardId
  pages : ∀ exported ∈ w.pages, w.PageSound env exported
  fresh : w.index.states env.registration.physicalIndexId = none →
    (∀ subject, ¬w.Touched env subject) ∧
      ∀ p ∈ w.index.postings, p.physicalIndexId ≠ env.registration.physicalIndexId
  built : ∀ state, w.index.states env.registration.physicalIndexId = some state →
    ∃ seeded, BuildInv env w state seeded

namespace BuildInv

variable {state : IndexBuildState} {seeded : IndexBuildSubject → Option Nat}

variable (h : BuildInv env w state seeded)

include h

/-- The build covers the registered shards, in their order. -/
theorem shardIds : state.shards.map (·.shardId) = env.registration.targetShardIds :=
  congrArg RegisterIndexBuildRequest.targetShardIds h.registration

/-- The scope's target is the registered one. -/
theorem target : state.scope.target = env.registration.target :=
  congrArg RegisterIndexBuildRequest.target h.registration

/-- A shard of the build is a registered one. -/
theorem mem_targetShardIds (hshard : shard ∈ state.shards) :
    shard.shardId ∈ env.registration.targetShardIds := by
  rw [← h.shardIds]
  exact mem_map_of_mem hshard

end BuildInv

/-! ## Events of the shards -/

/-- A shard evolves: what is held of its subjects is as before. -/
theorem BuildInv.evolve {state : IndexBuildState} (h : BuildInv env w state seeded)
    (hshards : ∀ shardId, (w.shards shardId).WellFormed shardId)
    (hevolves : (w.shards shardId).Evolves shard') :
    BuildInv env { w with shards := update w.shards shardId shard' } state seeded := by
  have hchanges : ∀ i, (w.shards i).changes.length ≤
      (update w.shards shardId shard' i).changes.length := by
    intro i
    by_cases hi : i = shardId
    · subst hi
      rw [update_self]
      rcases hevolves with hun | ⟨-, -, more, hmore, -⟩
      · simp [(hshards i).unregistered hun]
      · simp [hmore]
    · rw [update_of_ne hi]
  have hphase : ∀ i, (w.shards i).phase ≠ .unregistered →
      (update w.shards shardId shard' i).phase ≠ .unregistered := by
    intro i hreg
    by_cases hi : i = shardId
    · subst hi
      rw [update_self]
      rcases hevolves with hun | ⟨hreg', -⟩
      · exact absurd hun hreg
      · exact hreg'
    · rwa [update_of_ne hi]
  exact { h with
    acked := fun shard hshard => (h.acked shard hshard).trans (hchanges _)
    backfilled := by
      intro shard hshard subject hsubject
      have hold := h.backfilled shard hshard subject hsubject
      by_cases hi : shard.shardId = shardId
      · subst hi
        simp only [update_self]
        rcases hevolves with hun | ⟨-, hbase, more, hmore, -⟩
        · -- nothing was applied, exported or touched before the registration
          have hnil : shard.acknowledgedThrough = 0 := by
            have := h.acked shard hshard
            rw [(hshards _).unregistered hun] at this
            simpa using this
          rw [← hsubject] at hun
          have hseeded : seeded subject = none := Option.eq_none_iff_forall_ne_some.mpr
            fun e he => (h.exported subject e he).1 hun
          have htouched : ¬w.Touched env subject := fun ht => h.touched subject ht hun
          rw [hseeded] at hold
          rw [hnil, hseeded]
          exact .empty htouched fun v hv => by simpa using (hold.filled htouched v).mp hv
        · refine hold.congr (h.acked shard hshard) (fun e he => ?_) fun n hn => by
            rw [history, factsAt_append hbase hmore hn, history]
          rw [← hsubject]
          exact (h.exported subject e he).2
      · simp only [update_of_ne hi]
        exact hold
    exported := fun subject e he =>
      ⟨hphase _ (h.exported subject e he).1, (h.exported subject e he).2.trans (hchanges _)⟩
    touched := fun subject ht => hphase _ (h.touched subject ht)
    frozen := by
      intro epoch hepoch shard hshard
      obtain ⟨hsealed, htarget⟩ := h.frozen epoch hepoch shard hshard
      by_cases hi : shard.shardId = shardId
      · subst hi
        simp only [update_self]
        rcases hevolves with hun | ⟨-, -, more, hmore, hclosed⟩
        · rw [hsealed] at hun
          cases hun
        · obtain ⟨rfl, hsealed'⟩ := hclosed hsealed
          exact ⟨hsealed', by rw [htarget, hmore, append_nil]⟩
      · simp only [update_of_ne hi]
        exact ⟨hsealed, htarget⟩ }

/-- Every event of a shard keeps the invariant. -/
theorem WorldInv.evolve (h : WorldInv env w) {shardId : Nat} (hwf : shard'.WellFormed shardId)
    (hevolves : (w.shards shardId).Evolves shard') :
    WorldInv env { w with shards := update w.shards shardId shard' } where
  shards := by
    intro i
    by_cases hi : i = shardId
    · subst hi
      simpa using hwf
    · simpa [update_of_ne hi] using h.shards i
  pages := by
    intro exported hmem
    obtain ⟨hreg, hadvances, e, he, hpage⟩ := h.pages exported hmem
    by_cases hi : exported.pull.shardId = shardId
    · subst hi
      rcases hevolves with hun | ⟨hreg', hbase, more, hmore, -⟩
      · exact absurd hun hreg
      refine ⟨by simpa using hreg', hadvances, e, ?_, ?_⟩
      · simp only [update_self, hmore, length_append]
        exact he.trans (Nat.le_add_right ..)
      simp only [update_self]
      rw [factsAt_append hbase hmore he]
      exact hpage
    · refine ⟨?_, hadvances, e, ?_, ?_⟩ <;> simpa only [update_of_ne hi]
  fresh := h.fresh
  built := by
    intro state hstate
    obtain ⟨seeded, hinv⟩ := h.built state hstate
    exact ⟨seeded, hinv.evolve h.shards hevolves⟩

end

end Gleaph.Build
