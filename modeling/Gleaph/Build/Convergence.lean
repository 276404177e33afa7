import Gleaph.Runs
import Gleaph.Build.Invariant

/-!
# Gleaph.Build.Convergence

Once an online build is complete, its postings are the facts of the shards.

A change applies to one subject of one shard (`BuildInv.deliver`); a page covers
what stands behind the cursor and no further than the next one
(`BuildInv.seedPage`); the seal fixes the number of each shard's last change
(`WorldInv.sealBuild`).  A complete build has applied all of them, and so has
caught up with every page, whenever it was exported.
-/

namespace Gleaph.Build

open List hiding next

open BuildEnv

section

variable {ρ : Type} [LinearOrder ρ] {env : BuildEnv ρ} {w : BuildWorld}

/-! ## Events of the index -/

variable {index : IndexStore} {seeded : IndexBuildSubject → Option Nat} {state : IndexBuildState}
  {shardId : Nat} {prepared : List (IndexBuildSubject × PreparedBuildPosting)}

/-- The index changes for this build. -/
theorem WorldInv.putState (h : WorldInv env w) (hinv : BuildInv env { w with index } state seeded)
    (hstate : index.states env.registration.physicalIndexId = some state) :
    WorldInv env { w with index } where
  shards := h.shards
  pages := h.pages
  fresh := by
    intro hnone
    rw [hstate] at hnone
    cases hnone
  built := by
    intro state' hstate'
    obtain rfl : state = state' := Option.some.inj (hstate.symm.trans hstate')
    exact ⟨seeded, hinv⟩

open IndexStore

theorem strictlyIncreasing_pairwise (h : strictlyIncreasing ids = true) : ids.Pairwise (· < ·) := by
  induction ids with
  | nil => exact .nil
  | cons a rest ih =>
    cases rest with
    | nil => simp
    | cons b rest =>
      simp only [strictlyIncreasing, Bool.and_eq_true, decide_eq_true_eq] at h
      have hrest := ih h.2
      refine pairwise_cons.mpr ⟨fun c hc => ?_, hrest⟩
      rcases mem_cons.mp hc with rfl | hc
      · exact h.1
      · exact h.1.trans ((pairwise_cons.mp hrest).1 c hc)

theorem WorldInv.register (h : WorldInv env w)
    (hcall : w.index.registerIndexBuild env.codec env.router env.registration =
      .ok (status, index)) : WorldInv env { w with index } := by
  rcases IndexStore.registerIndexBuild_eq_ok hcall with rfl | ⟨hnone, hincreasing, rfl⟩
  · exact h
  obtain ⟨htouched, hpostings⟩ := h.fresh hnone
  have hheld : ∀ subject value, value ∉ w.held env subject :=
    fun subject value hmem => hpostings _ hmem (posting_physicalIndexId ..)
  have hzero : ∀ shard ∈ (IndexBuildState.new env.registration).shards,
      shard.acknowledgedThrough = 0 := by
    intro shard hshard
    obtain ⟨id, -, rfl⟩ := mem_map.mp hshard
    rfl
  have hinv : BuildInv env
      { w with
        index := w.index.putState env.registration.physicalIndexId (.new env.registration) }
      (.new env.registration) fun _ => none :=
    { registration := by simp [IndexBuildState.registration, IndexBuildState.new, Function.comp_def]
      nodup := (strictlyIncreasing_pairwise hincreasing).imp (fun hlt => hlt.ne)
      acked := fun shard hshard => by simp [hzero shard hshard]
      backfilled := by
        intro shard hshard subject _
        rw [hzero shard hshard]
        exact .empty (htouched subject) (hheld subject)
      exported := by simp
      touched := fun subject ht => absurd ht (htouched subject)
      own := fun p hp hid => absurd hid (hpostings p hp)
      before := fun k _ _ hk => absurd hk (Nat.not_lt_zero k)
      within := fun k _ _ _ subject _ => by simp [IndexBuildState.new, Behind]
      after := fun _ _ _ _ _ _ => rfl
      frozen := by simp [IndexBuildState.new] }
  exact h.putState hinv (by simp [IndexStore.putState])

/-- The postings of the shards depend on the shards' numbers alone. -/
theorem ofShards_iff {shards : List IndexBuildShardState}
    {P : IndexBuildSubject → List UInt8 → Prop} :
    (∃ shard ∈ shards, ∃ subject value, subject.shardId = shard.shardId ∧ P subject value) ↔
      ∃ subject value, subject.shardId ∈ shards.map (·.shardId) ∧ P subject value := by
  simp only [mem_map]
  constructor
  · rintro ⟨shard, hshard, subject, value, hid, h⟩
    exact ⟨subject, value, ⟨shard, hshard, hid.symm⟩, h⟩
  · rintro ⟨subject, value, ⟨shard, hshard, hid⟩, h⟩
    exact ⟨shard, hshard, subject, value, hid.symm, h⟩

/-! ### Changes -/

/-- After a change one shard's entry is new; the others stand. -/
theorem mem_modifyShard (hnodup : (shards.map (·.shardId)).Nodup)
    (hfind : shards.find? (fun shard => shard.shardId = shardId) = some shard)
    (hmem : shard' ∈ modifyShard shardId change shards) :
    shard' = change shard ∨ (shard' ∈ shards ∧ shard'.shardId ≠ shardId) := by
  induction shards with
  | nil => cases hmem
  | cons head shards ih =>
    obtain ⟨hnotin, hnodup⟩ := nodup_cons.mp hnodup
    by_cases hid : head.shardId = shardId
    · rw [find?_cons_of_pos (by simpa using hid)] at hfind
      cases hfind
      rw [modifyShard, if_pos hid] at hmem
      rcases mem_cons.mp hmem with rfl | hmem
      · exact .inl rfl
      · refine .inr ⟨mem_cons_of_mem _ hmem, fun hid' => hnotin ?_⟩
        exact mem_map.mpr ⟨shard', hmem, hid'.trans hid.symm⟩
    · rw [find?_cons_of_neg (by simpa using hid)] at hfind
      rw [modifyShard, if_neg hid] at hmem
      rcases mem_cons.mp hmem with rfl | hmem
      · exact .inr ⟨mem_cons_self, hid⟩
      · exact (ih hnodup hfind hmem).imp_right fun hold => ⟨mem_cons_of_mem _ hold.1, hold.2⟩

theorem map_shardId_modifyShard (hchange : ∀ shard, (change shard).shardId = shard.shardId)
    (shards : List IndexBuildShardState) :
    (modifyShard shardId change shards).map (·.shardId) = shards.map (·.shardId) := by
  induction shards with
  | nil => rfl
  | cons head shards ih =>
    unfold modifyShard
    split
    · simp [hchange]
    · simp [ih]

/-- The world after a change was applied. -/
def BuildWorld.delivered (env : BuildEnv ρ) (w : BuildWorld) (sequence : Nat) (change : BuildChange)
    (fingerprint : Fingerprint) (state : IndexBuildState) : BuildWorld :=
  let prepared := posting env.registration.physicalIndexId env.registration.target.propertyId
    change.subject
  { w with
    index := w.index.applyPrepared (env.dmlRequest sequence change) fingerprint state
      (change.old.toList.map prepared) (change.new.toList.map prepared) }

section

variable {change : BuildChange} {sequence : Nat} {fingerprint : Fingerprint}
  {state : IndexBuildState} {subject : IndexBuildSubject}

omit [LinearOrder ρ] in
theorem mem_prepared (env : BuildEnv ρ) (values : Option (List UInt8)) :
    posting env.registration.physicalIndexId env.registration.target.propertyId subject value ∈
      values.toList.map (posting env.registration.physicalIndexId
        env.registration.target.propertyId change.subject) ↔
      subject = change.subject ∧ values = some value := by
  simp only [mem_map, posting_inj, Option.mem_toList]
  constructor
  · rintro ⟨other, hother, rfl, rfl⟩
    exact ⟨rfl, hother⟩
  · rintro ⟨rfl, hvalue⟩
    exact ⟨value, hvalue, rfl, rfl⟩

omit [LinearOrder ρ] in
/-- What is held after a change: of its subject the old value is gone and the
new one is there, of the others nothing changes. -/
theorem mem_held_delivered :
    value ∈ (w.delivered env sequence change fingerprint state).held env subject ↔
      (value ∈ w.held env subject ∧ ¬(subject = change.subject ∧ change.old = some value)) ∨
        (subject = change.subject ∧ change.new = some value) := by
  rw [← mem_prepared env, ← mem_prepared env]
  simp [BuildWorld.held, BuildWorld.delivered, applyPrepared, putState]

omit [LinearOrder ρ] in
theorem touched_delivered :
    (w.delivered env sequence change fingerprint state).Touched env subject ↔
      subject = change.subject ∨ w.Touched env subject := by
  simp [BuildWorld.Touched, BuildWorld.delivered, applyPrepared, putState,
    dmlRequest]

end

theorem BuildInv.deliver (h : BuildInv env w state seeded)
    (hwf : (w.shards shardId).WellFormed shardId)
    (hfind : state.shards.find? (fun shard => shard.shardId = change.subject.shardId) = some shard)
    (hchange : (w.shards shardId).changes[shard.acknowledgedThrough]? = some change)
    (hphase : (w.shards shardId).phase ≠ .unregistered) (fingerprint : Fingerprint) :
    BuildInv env
      (w.delivered env (shard.acknowledgedThrough + 1) change fingerprint state)
      (acknowledge state (env.dmlRequest (shard.acknowledgedThrough + 1) change) fingerprint)
      seeded := by
  have hsubject : change.subject.shardId = shardId :=
    hwf.ownChange change (List.mem_of_getElem? hchange)
  subst hsubject
  have hshard : shard ∈ state.shards := List.mem_of_find?_eq_some hfind
  have hid : shard.shardId = change.subject.shardId := by simpa using List.find?_some hfind
  have hnodup : (state.shards.map (·.shardId)).Nodup := h.shardIds ▸ h.nodup
  have hlength := (List.getElem?_eq_some_iff.mp hchange).1
  have hids : (acknowledge state (env.dmlRequest (shard.acknowledgedThrough + 1) change)
      fingerprint).shards.map (·.shardId) = state.shards.map (·.shardId) :=
    map_shardId_modifyShard (by exact fun _ => rfl) state.shards
  -- the entry of the change's shard is one further, the others stand
  have hcases : ∀ shard' ∈ (acknowledge state
      (env.dmlRequest (shard.acknowledgedThrough + 1) change) fingerprint).shards,
      (shard'.shardId = shard.shardId ∧ shard'.acknowledgedThrough = shard.acknowledgedThrough + 1 ∧
        shard'.sealTarget = shard.sealTarget) ∨
      (shard' ∈ state.shards ∧ shard'.shardId ≠ change.subject.shardId) := by
    intro shard' hmem
    rcases mem_modifyShard hnodup hfind hmem with rfl | hold
    · exact .inl ⟨rfl, rfl, rfl⟩
    · exact .inr hold
  exact {
    registration := by
      rw [← h.registration, IndexBuildState.registration, hids]
      rfl
    nodup := h.nodup
    acked := by
      intro shard' hmem
      rcases hcases shard' hmem with ⟨hsame, hack, -⟩ | ⟨hold, -⟩
      · rw [hack, hsame, hid]
        exact hlength
      · exact h.acked shard' hold
    backfilled := by
      intro shard' hmem subject hsubject
      have hother : subject ≠ change.subject →
          (w.delivered env (shard.acknowledgedThrough + 1) change fingerprint state).held env subject =
            w.held env subject := by
        intro hne
        ext value
        simp [mem_held_delivered, hne]
      rcases hcases shard' hmem with ⟨hsame, hack, -⟩ | ⟨hold, hne⟩
      · rw [hsame, hid] at hsubject ⊢
        rw [hack]
        have hold := h.backfilled shard hshard subject (hsubject.trans hid.symm)
        rw [hid] at hold
        have hnext := GraphShard.history_succ hchange subject
        by_cases heq : subject = change.subject
        · subst heq
          rw [if_pos rfl] at hnext
          refine hold.change (fun value => ?_) (touched_delivered.mpr (.inl rfl))
          rw [mem_held_delivered, ← hwf.old _ change hchange, hnext]
          simp
        · rw [if_neg heq] at hnext
          rw [hother heq]
          rw [touched_delivered, or_iff_right heq]
          exact hold.pass hnext
      · have hneq : subject ≠ change.subject := by
          rintro rfl
          exact hne hsubject.symm
        rw [hother hneq, touched_delivered, or_iff_right hneq]
        exact h.backfilled shard' hold subject hsubject
    exported := h.exported
    touched := by
      intro subject htouched
      rcases touched_delivered.mp htouched with rfl | htouched
      · exact hphase
      · exact h.touched subject htouched
    own := by
      intro p hp hpid
      rw [ofShards_iff, hids]
      simp only [BuildWorld.delivered, applyPrepared, putState,
        Finset.mem_union, Finset.mem_sdiff, List.mem_toFinset, List.mem_map] at hp
      rcases hp with ⟨hp, -⟩ | ⟨value, -, rfl⟩
      · exact ofShards_iff.mp (h.own p hp hpid)
      · exact ⟨_, value, hid ▸ List.mem_map_of_mem hshard, rfl⟩
    before := h.before
    within := h.within
    after := h.after
    frozen := by
      intro epoch hepoch shard' hmem
      rcases hcases shard' hmem with ⟨hsame, -, htarget⟩ | ⟨hold, -⟩
      · rw [hsame, htarget]
        exact h.frozen epoch hepoch shard hshard
      · exact h.frozen epoch hepoch shard' hold }

/-! ### Pages -/

/-- The prepared facts of an exported page: those of the subjects it covers. -/
theorem mem_prepareFacts
    (hown : ∀ subject value, facts.lookup subject = some value → subject.shardId = shardId)
    (htarget : target = env.registration.target)
    (h : prepareFacts env.registration.physicalIndexId target shardId seen
      (env.exportedPage facts cursor next).facts = .ok prepared) :
    (subject, p) ∈ prepared ↔ env.Behind cursor subject ∧ env.UpTo next subject ∧
      ∃ value, facts.lookup subject = some value ∧
        p = posting env.registration.physicalIndexId env.registration.target.propertyId subject
          value := by
  subst htarget
  have hmem : ∀ entry ∈ facts.entries.filter fun entry =>
      env.Behind cursor entry.1 ∧ env.UpTo next entry.1, entry.1.shardId = shardId :=
    fun entry hentry => hown entry.1 entry.2 (AList.mem_lookup_iff.mpr (mem_filter.mp hentry).1)
  rw [prepareFacts_eq_ok hmem h]
  simp only [mem_map, mem_filter, decide_eq_true_eq, Prod.mk.injEq]
  constructor
  · rintro ⟨⟨_, value⟩, ⟨hentry, hbehind, hupTo⟩, rfl, rfl⟩
    exact ⟨hbehind, hupTo, value, AList.mem_lookup_iff.mpr hentry, rfl⟩
  · rintro ⟨hbehind, hupTo, value, hvalue, rfl⟩
    exact ⟨⟨subject, value⟩, ⟨AList.mem_lookup_iff.mp hvalue, hbehind, hupTo⟩, rfl, rfl⟩

/-- The world after a page was filled in. -/
def BuildWorld.seededPage (env : BuildEnv ρ) (w : BuildWorld)
    (prepared : List (IndexBuildSubject × PreparedBuildPosting)) (state : IndexBuildState) :
    BuildWorld :=
  { w with
    index := { w.index with
      postings := w.index.postings ∪
        (w.index.untouchedPostings env.registration.physicalIndexId prepared).toFinset }.putState
          env.registration.physicalIndexId state }

/-- The page covers the subject. -/
def BuildEnv.Covers (env : BuildEnv ρ) (shardId : Nat) (cursor next : Option (List UInt8))
    (subject : IndexBuildSubject) : Prop :=
  subject.shardId = shardId ∧ env.Behind cursor subject ∧ env.UpTo next subject

instance (shardId : Nat) (cursor next : Option (List UInt8)) (subject : IndexBuildSubject) :
    Decidable (env.Covers shardId cursor next subject) := by
  unfold Covers
  infer_instance

/-- What is held after a page: the untouched subjects it covers have their
exported value. -/
theorem mem_held_seededPage
    (hown : ∀ subject value, facts.lookup subject = some value → subject.shardId = shardId)
    (h : prepareFacts env.registration.physicalIndexId env.registration.target shardId []
      (env.exportedPage facts cursor next).facts = .ok prepared) :
    value ∈ (w.seededPage env prepared state).held env subject ↔ value ∈ w.held env subject ∨
      (¬w.Touched env subject ∧ env.Covers shardId cursor next subject ∧
        facts.lookup subject = some value) := by
  have hposting : posting env.registration.physicalIndexId env.registration.target.propertyId subject
      value ∈ w.index.untouchedPostings env.registration.physicalIndexId prepared ↔
        (¬w.Touched env subject ∧ env.Covers shardId cursor next subject ∧
          facts.lookup subject = some value) := by
    simp only [untouchedPostings, mem_map, mem_filter, decide_eq_true_eq,
      Prod.exists]
    constructor
    · rintro ⟨other, p, ⟨hmem, hun⟩, hp⟩
      obtain ⟨hbehind, hupTo, value', hvalue', hp'⟩ := (mem_prepareFacts hown rfl h).mp hmem
      obtain ⟨rfl, rfl⟩ := posting_inj.mp (hp'.symm.trans hp)
      exact ⟨hun, ⟨hown _ _ hvalue', hbehind, hupTo⟩, hvalue'⟩
    · rintro ⟨hun, ⟨-, hbehind, hupTo⟩, hvalue⟩
      exact ⟨subject, _, ⟨(mem_prepareFacts hown rfl h).mpr ⟨hbehind, hupTo, value, hvalue, rfl⟩, hun⟩,
        rfl⟩
  simp [BuildWorld.held, BuildWorld.seededPage, putState, hposting]

/-- The pull's shard is the current one. -/
theorem BuildInv.expected (h : BuildInv env w state seeded)
    (hexpected : state.progress.expectedShardId = some shardId) :
    env.registration.targetShardIds[state.nextShardIndex]? = some shardId := by
  rw [← h.shardIds, getElem?_map]
  simp only [IndexBuildState.progress] at hexpected
  split at hexpected
  · cases hexpected
  · exact hexpected

/-- How far the shards have been exported after a page: to `e` where it covers. -/
def BuildEnv.seededWith (env : BuildEnv ρ) (shardId : Nat) (cursor next : Option (List UInt8))
    (e : Nat) (seeded : IndexBuildSubject → Option Nat) (subject : IndexBuildSubject) : Option Nat :=
  if env.Covers shardId cursor next subject then some e else seeded subject

theorem isSome_seededWith (h : (seeded subject).isSome) :
    (env.seededWith shardId cursor next e seeded subject).isSome := by
  unfold seededWith
  split
  · rfl
  · exact h

/-- A page changes what is held of untouched subjects it covers only. -/
theorem held_seededPage_of_not
    (hown : ∀ subject value, facts.lookup subject = some value → subject.shardId = shardId)
    (h : prepareFacts env.registration.physicalIndexId env.registration.target shardId []
      (env.exportedPage facts cursor next).facts = .ok prepared)
    (hnot : ¬(¬w.Touched env subject ∧ env.Covers shardId cursor next subject)) :
    (w.seededPage env prepared state).held env subject = w.held env subject := by
  ext value
  rw [mem_held_seededPage hown h, ← and_assoc, or_iff_left fun hand => hnot hand.1]

section Page

variable (h : BuildInv env w state seeded)
  (hcurrent : env.registration.targetShardIds[state.nextShardIndex]? = some shardId)

include h hcurrent

/-- What a page covers was not covered before. -/
theorem BuildInv.seeded_eq_none (hcovers : env.Covers shardId state.cursor next subject) :
    seeded subject = none := by
  obtain ⟨hsubject, hbehind, -⟩ := hcovers
  have := (h.within _ shardId hcurrent rfl subject hsubject).not.mpr (not_not.mpr hbehind)
  simpa using this

/-- A page covers nothing of another shard. -/
theorem BuildInv.not_covers_of_ne (hk : env.registration.targetShardIds[k]? = some shardId')
    (hne : k ≠ state.nextShardIndex) (hsubject : subject.shardId = shardId') :
    ¬env.Covers shardId cursor next subject := by
  subst hsubject
  rintro ⟨hsame, -⟩
  rw [← hsame] at hcurrent
  exact hne ((List.getElem?_inj (List.getElem?_eq_some_iff.mp hk).1 h.nodup).mp
    (hk.trans hcurrent.symm))

/-- Behind a page the current shard is covered up to the next cursor. -/
theorem BuildInv.isSome_seededWith_of_upTo (hsubject : subject.shardId = shardId)
    (hupTo : env.UpTo next subject) :
    (env.seededWith shardId state.cursor next e seeded subject).isSome := by
  by_cases hbehind : env.Behind state.cursor subject
  · rw [seededWith, if_pos ⟨hsubject, hbehind, hupTo⟩]
    rfl
  · exact isSome_seededWith ((h.within _ shardId hcurrent rfl subject hsubject).mpr hbehind)

/-- Where the page is not the last of its shard, that is all that is covered of it. -/
theorem BuildInv.isSome_seededWith_iff (hadvances : env.Advances state.cursor (some next))
    (hsubject : subject.shardId = shardId) :
    (env.seededWith shardId state.cursor (some next) e seeded subject).isSome ↔
      ¬env.Behind (some next) subject := by
  have hupTo : ¬env.Behind (some next) subject ↔ env.UpTo (some next) subject := by
    simp [Behind, UpTo]
  rw [hupTo]
  refine ⟨fun hsome => ?_, h.isSome_seededWith_of_upTo hcurrent hsubject⟩
  rw [seededWith] at hsome
  split at hsome
  next hcovers => exact hcovers.2.2
  · -- it was covered before, so it stands before the old cursor
    have hbehind := (h.within _ _ hcurrent rfl subject hsubject).mp hsome
    simp only [Behind, not_forall, not_lt] at hbehind
    obtain ⟨c, hc, hle⟩ := hbehind
    rintro _ ⟨⟩
    exact hle.trans (hadvances c hc next rfl).le

section Facts

variable (hown : ∀ subject value, ((w.shards shardId).factsAt e).lookup subject = some value →
    subject.shardId = shardId)
  (hprepared : prepareFacts env.registration.physicalIndexId env.registration.target shardId []
    (env.exportedPage ((w.shards shardId).factsAt e) state.cursor next).facts = .ok prepared)

include hown hprepared

/-- A subject that the page covers is seeded, unless a change has touched it; the others are
left alone. -/
theorem BuildInv.backfilled_seededPage (hshard : shard ∈ state.shards)
    (hsubject : subject.shardId = shard.shardId) :
    Backfilled ((w.shards shard.shardId).history subject) (w.Touched env subject)
      shard.acknowledgedThrough (env.seededWith shardId state.cursor next e seeded subject)
      ((w.seededPage env prepared state').held env subject) := by
  have hold := h.backfilled shard hshard subject hsubject
  rw [seededWith]
  by_cases hcovers : env.Covers shardId state.cursor next subject
  · rw [if_pos hcovers]
    rw [h.seeded_eq_none hcurrent hcovers] at hold
    by_cases htouched : w.Touched env subject
    · rw [held_seededPage_of_not hown hprepared fun hnot => hnot.1 htouched]
      exact hold.skip htouched e
    refine hold.seed htouched fun value => ?_
    rw [mem_held_seededPage hown hprepared, ← hsubject, hcovers.1]
    simp [htouched, hcovers, GraphShard.history]
  · rw [if_neg hcovers, held_seededPage_of_not hown hprepared fun hnot => hcovers hnot.2]
    exact hold

/-- The postings of a page are of the build's shards. -/
theorem BuildInv.own_seededPage (hp : p ∈ (w.seededPage env prepared state').index.postings)
    (hpid : p.physicalIndexId = env.registration.physicalIndexId) :
    ∃ shard ∈ state.shards, ∃ subject value, subject.shardId = shard.shardId ∧
      p = posting env.registration.physicalIndexId env.registration.target.propertyId subject
        value := by
  simp only [BuildWorld.seededPage, putState, Finset.mem_union, mem_toFinset,
    untouchedPostings, mem_map, mem_filter, Prod.exists] at hp
  rcases hp with hp | ⟨subject, _, ⟨hmem, -⟩, rfl⟩
  · exact h.own p hp hpid
  obtain ⟨-, -, value, hvalue, rfl⟩ := (mem_prepareFacts hown rfl hprepared).mp hmem
  refine ofShards_iff.mpr ⟨subject, value, ?_, rfl⟩
  rw [hown subject value hvalue, h.shardIds]
  exact mem_of_getElem? hcurrent

end Facts

end Page

/-- A page covers what is behind the cursor and no further than the next one;
after it the build stands at the next cursor, or at the next shard. -/
theorem BuildInv.seedPage (h : BuildInv env w state seeded)
    (hwf : (w.shards shardId).WellFormed shardId) (hreg : (w.shards shardId).phase ≠ .unregistered)
    (he : e ≤ (w.shards shardId).changes.length) (hbuilding : state.lifecycle = .building)
    (hcurrent : env.registration.targetShardIds[state.nextShardIndex]? = some shardId)
    (request : IndexBuildSeedPageRequest) (hdone : request.done = request.nextCursor.isNone)
    (hadvances : env.Advances state.cursor request.nextCursor)
    (hprepared : prepareFacts env.registration.physicalIndexId env.registration.target
      shardId [] (env.exportedPage ((w.shards shardId).factsAt e) state.cursor
        request.nextCursor).facts = .ok prepared) (fingerprint : Fingerprint)
    (insertedFacts skipped : Nat) :
    BuildInv env
      (w.seededPage env prepared (advanced state request fingerprint insertedFacts skipped))
      (advanced state request fingerprint insertedFacts skipped)
      (env.seededWith shardId state.cursor request.nextCursor e seeded) := by
  have hown : ∀ subject value, ((w.shards shardId).factsAt e).lookup subject = some value →
      subject.shardId = shardId := fun subject value hvalue => hwf.own_fact hvalue
  exact {
    registration := h.registration
    nodup := h.nodup
    acked := h.acked
    backfilled := fun _ hshard _ hsubject =>
      h.backfilled_seededPage hcurrent hown hprepared hshard hsubject
    exported := by
      intro subject e' he'
      rw [seededWith] at he'
      split at he'
      next hcovers =>
        cases he'
        rw [hcovers.1]
        exact ⟨hreg, he⟩
      · exact h.exported subject e' he'
    touched := h.touched
    own := fun _ => h.own_seededPage hcurrent hown hprepared
    before := by
      intro k shardId' hk hlt subject hsubject
      rcases Nat.lt_or_ge k state.nextShardIndex with hlt' | hge
      · exact isSome_seededWith (h.before k shardId' hk hlt' subject hsubject)
      -- the page was the last one of the current shard
      have hlast : request.done = true ∧ k = state.nextShardIndex := by
        simp only [advanced] at hlt
        split at hlt
        next hyes => exact ⟨hyes, by omega⟩
        · omega
      obtain ⟨hyes, rfl⟩ := hlast
      rw [hcurrent] at hk
      cases hk
      rw [hdone, Option.isNone_iff_eq_none] at hyes
      exact h.isSome_seededWith_of_upTo hcurrent hsubject (by simp [UpTo, hyes])
    within := by
      intro k shardId' hk heq subject hsubject
      simp only [advanced] at heq ⊢
      cases hnext : request.nextCursor with
      | none =>
        have hyes : request.done = true := by rw [hdone, hnext]; rfl
        rw [if_pos hyes] at heq
        rw [seededWith, if_neg (h.not_covers_of_ne hcurrent hk (by omega) hsubject),
          h.after k shardId' hk (by omega) subject hsubject, if_pos hyes]
        simp [Behind]
      | some next =>
        have hno : ¬request.done = true := by rw [hdone, hnext]; simp
        rw [if_neg hno] at heq
        subst heq
        rw [hcurrent] at hk
        cases hk
        rw [if_neg hno]
        rw [hnext] at hadvances
        exact h.isSome_seededWith_iff hcurrent hadvances hsubject
    after := by
      intro k shardId' hk hlt subject hsubject
      have hlt' : state.nextShardIndex < k := by
        simp only [advanced] at hlt
        split at hlt <;> omega
      rw [seededWith, if_neg (h.not_covers_of_ne hcurrent hk (by omega) hsubject)]
      exact h.after k shardId' hk hlt' subject hsubject
    frozen := by
      intro epoch hepoch
      simp only [advanced] at hepoch
      rw [hbuilding] at hepoch
      cases hepoch }

section

variable (h : WorldInv env w)

include h

theorem WorldInv.applyPull (hmem : exported ∈ w.pages)
    (hcall : w.index.applyIndexBuildPull env.codec env.router env.control exported.pull exported.page =
      .ok (status, index)) : WorldInv env { w with index } := by
  -- the page of the pull is filled in as the pull says
  obtain ⟨_, -, hcall⟩ := bind_inv hcall
  obtain ⟨_, -, hcall⟩ := bind_inv hcall
  obtain ⟨_, -, hcall⟩ := bind_inv hcall
  split at hcall
  · cases hcall
  split at hcall
  · cases hcall
  split at hcall
  · cases hcall
  obtain ⟨⟨result, final⟩, hseed, hcall⟩ := bind_inv hcall
  obtain ⟨_, -, hcall⟩ := bind_inv hcall
  cases hcall
  rcases IndexStore.seedIndexBuildPage_eq_ok hseed with rfl | ⟨state, prepared, fingerprint,
    insertedFacts, skipped, hstate, hbuilding, hexpected, hcursor, hdone, hprepared, rfl⟩
  · exact h
  obtain ⟨seeded, hinv⟩ := h.built state hstate
  obtain ⟨hreg, hadvances, e, he, hpage⟩ := h.pages exported hmem
  simp only at hcursor hexpected
  rw [hpage, hcursor, hinv.target] at hprepared
  rw [hcursor] at hadvances
  have hseeded := hinv.seedPage (h.shards exported.pull.shardId) hreg he hbuilding
    (hinv.expected hexpected) _ hdone hadvances hprepared fingerprint insertedFacts skipped
  exact h.putState hseeded (by simp [IndexStore.putState, BuildEnv.control])

/-- Pulls and pages are noted. -/
theorem WorldInv.note {pages : List ExportedPage}
    (hpages : ∀ exported ∈ pages, w.PageSound env exported) :
    WorldInv env { w with pulls, pages } where
  shards := h.shards
  pages := hpages
  fresh := h.fresh
  built := by
    intro state hstate
    obtain ⟨seeded, hinv⟩ := h.built state hstate
    exact ⟨seeded, { hinv with }⟩

theorem WorldInv.exportPage (pull : PreparedIndexBuildPull) (next : Option (List UInt8)) :
    WorldInv env (w.exportPage env pull next) := by
  unfold BuildWorld.exportPage
  simp only
  split
  next hopen =>
    refine h.note fun exported hmem => ?_
    rcases mem_append.mp hmem with hmem | hmem
    · exact h.pages exported hmem
    · obtain rfl := mem_singleton.mp hmem
      exact ⟨by simp [hopen.1], hopen.2, _, le_rfl, rfl⟩
  · exact h

theorem WorldInv.deliver (shardId sequence : Nat) :
    WorldInv env (w.deliver env shardId sequence) := by
  unfold BuildWorld.deliver
  split
  next change caller hchange hcaller =>
    split
    next index hcall =>
      rcases IndexStore.applyIndexBuildDml_eq_ok hcall with rfl | ⟨state, shard, fingerprint, hstate,
        hfind, hnext, rfl⟩
      · exact h
      obtain ⟨seeded, hinv⟩ := h.built state hstate
      obtain rfl : sequence = shard.acknowledgedThrough + 1 := hnext
      have hphase : (w.shards shardId).phase ≠ .unregistered := by
        intro hun
        rw [(h.shards shardId).unregistered hun] at hchange
        cases hchange
      have hdelivered := hinv.deliver (h.shards shardId) hfind hchange hphase fingerprint
      rw [hinv.target]
      exact h.putState hdelivered (by simp [IndexStore.applyPrepared, IndexStore.putState,
        dmlRequest])
    · exact h
  · exact h

/-! ### Sealing -/

theorem WorldInv.sealBuild
    (hsealed : ∀ shardId ∈ env.registration.targetShardIds, (w.shards shardId).phase = .sealing)
    (hcall : w.index.sealIndexBuild env.codec env.router
      ⟨env.control, epoch, w.sealTargets env⟩ = .ok (status, index)) :
    WorldInv env { w with index } := by
  rcases IndexStore.sealIndexBuild_eq_ok hcall with rfl | ⟨state, shards, hstate, -, hlength, hset,
    rfl⟩
  · exact h
  obtain ⟨seeded, hinv⟩ := h.built state hstate
  have hforall := IndexStore.setSealTargets_eq_ok hlength hset
  -- each entry is an old one with the number of its shard's last change
  have hcases : ∀ shard' ∈ shards, ∃ shard ∈ state.shards, shard' =
      { shard with sealTarget := some (w.shards shard.shardId).changes.length } := by
    intro shard' hshard'
    obtain ⟨i, hi, rfl⟩ := getElem_of_mem hshard'
    obtain ⟨target, htarget, hid, heq⟩ :=
      hforall.get (hforall.length_eq ▸ hi : i < state.shards.length) hi
    obtain ⟨shardId, -, rfl⟩ := mem_map.mp htarget
    subst hid
    exact ⟨_, getElem_mem _, heq⟩
  have hids : shards.map (·.shardId) = state.shards.map (·.shardId) := by
    refine (forall₂_eq_eq_eq.le _ _ ?_).symm
    rw [forall₂_map_left_iff, forall₂_map_right_iff]
    refine hforall.imp ?_
    rintro shard _ ⟨target, -, -, rfl⟩
    rfl
  have hinv' : BuildInv env
      { w with
        index := w.index.putState env.registration.physicalIndexId
          { state with shards, lifecycle := .sealing epoch } }
      { state with shards, lifecycle := .sealing epoch } seeded :=
    { hinv with
      registration := by
        rw [← hinv.registration, IndexBuildState.registration, hids]
        rfl
      acked := by
        intro shard' hshard'
        obtain ⟨shard, hshard, rfl⟩ := hcases shard' hshard'
        exact hinv.acked shard hshard
      backfilled := by
        intro shard' hshard'
        obtain ⟨shard, hshard, rfl⟩ := hcases shard' hshard'
        exact hinv.backfilled shard hshard
      own := by
        intro p hp hpid
        rw [ofShards_iff, hids, ← ofShards_iff]
        exact hinv.own p hp hpid
      frozen := by
        intro _ _ shard' hshard'
        obtain ⟨shard, hshard, rfl⟩ := hcases shard' hshard'
        have hid := hinv.mem_targetShardIds hshard
        exact ⟨hsealed _ hid, rfl⟩ }
  exact h.putState hinv' (by simp [IndexStore.putState, BuildEnv.control])

end

/-! ## Runs -/

theorem WorldInv.initial (env : BuildEnv ρ) : WorldInv env (.initial env) where
  shards := fun _ => ⟨by simp [BuildWorld.initial], by simp [BuildWorld.initial],
    by simp [BuildWorld.initial], fun _ => rfl⟩
  pages := by simp [BuildWorld.initial]
  fresh := fun _ => ⟨by simp [BuildWorld.initial, BuildWorld.Touched, empty],
    by simp [BuildWorld.initial, empty]⟩
  built := by simp [BuildWorld.initial, empty]

/-- Every event keeps the invariant. -/
theorem WorldInv.step (h : WorldInv env w) (event : BuildEvent) : WorldInv env (w.step env event) := by
  cases event <;> simp only [BuildWorld.step]
  case register =>
    unfold BuildWorld.called
    split
    next hcall => exact h.register hcall
    · exact h
  case registerScope shardId =>
    split
    next hphase =>
      have hwf := h.shards shardId
      refine h.evolve ⟨hwf.own, hwf.ownChange, hwf.old, by simp⟩ (.inl hphase)
    · exact h
  case change subject value =>
    obtain ⟨hwf, hevolves⟩ := (h.shards subject.shardId).change value
    exact h.evolve hwf hevolves
  case deliver shardId sequence => exact h.deliver shardId sequence
  case preparePull =>
    split
    · exact h.note h.pages
    · exact h
  case exportPage i next =>
    split
    · exact h.exportPage _ next
    · exact h
  case applyPull i =>
    split
    next exported hexported =>
      unfold BuildWorld.called
      split
      next hcall => exact h.applyPull (mem_of_getElem? hexported) hcall
      · exact h
    · exact h
  case sealScope shardId =>
    split
    next hphase =>
      have hwf := h.shards shardId
      refine h.evolve ⟨hwf.own, hwf.ownChange, hwf.old, by simp⟩ (.inr ⟨by simp, rfl, [], by simp, ?_⟩)
      simp [hphase]
    · exact h
  case sealBuild epoch =>
    split
    next hall =>
      unfold BuildWorld.called
      split
      next hcall => exact h.sealBuild (by simpa using hall) hcall
      · exact h
    · exact h

/-- A complete build has caught up with every page. -/
theorem WorldInv.converged (h : WorldInv env w) : w.Converged env := by
  intro state hstate ⟨hdone, ⟨epoch, hsealing⟩, hacked⟩ p hpid
  obtain ⟨seeded, hinv⟩ := h.built state hstate
  have heq : ∀ shard ∈ state.shards, ∀ subject, subject.shardId = shard.shardId → ∀ value,
      value ∈ w.held env subject ↔
        (w.shards shard.shardId).history subject shard.acknowledgedThrough = some value := by
    intro shard hshard subject hsubject value
    -- the shard is one of those whose pages are all applied
    obtain ⟨k, hk⟩ := mem_iff_getElem?.mp (hinv.mem_targetShardIds hshard)
    have hlt : k < state.nextShardIndex := by
      have hlength := (List.getElem?_eq_some_iff.mp hk).1
      rw [← hinv.shardIds, length_map] at hlength
      simp only [IndexBuildState.done, decide_eq_true_eq] at hdone
      omega
    obtain ⟨e, he⟩ := Option.isSome_iff_exists.mp (hinv.before k _ hk hlt subject hsubject)
    have hbackfilled := hinv.backfilled shard hshard subject hsubject
    rw [he] at hbackfilled
    refine hbackfilled.eq ?_ value
    have htarget := (hinv.frozen epoch hsealing shard hshard).2
    rw [hacked shard hshard] at htarget
    rw [Option.some.inj htarget, ← hsubject]
    exact (hinv.exported subject e he).2
  constructor
  · intro hp
    obtain ⟨shard, hshard, subject, value, hsubject, rfl⟩ := hinv.own p hp hpid
    exact ⟨shard, hshard, subject, value, hsubject, (heq shard hshard subject hsubject value).mp hp, rfl⟩
  · rintro ⟨shard, hshard, subject, value, hsubject, hvalue, rfl⟩
    exact (heq shard hshard subject hsubject value).mpr hvalue

theorem WorldInv.run (env : BuildEnv ρ) (events : List BuildEvent) :
    WorldInv env (events.foldl (BuildWorld.step env) (.initial env)) :=
  foldl_keeps (fun _ event hinv => hinv.step event) (.initial env) events

/-- In every run, whenever the build is complete its postings are the facts of
all shards after their sealed changes. -/
theorem complete_build_matches_facts (env : BuildEnv ρ) (events : List BuildEvent) :
    (events.foldl (BuildWorld.step env) (.initial env)).Converged env :=
  (WorldInv.run env events).converged

/-- While a build goes on: of a subject with an applied change the index has the
value after the acknowledged changes, and every value it has is that one or a
later one of the shard. -/
def BuildWorld.TouchedCurrent (env : BuildEnv ρ) (w : BuildWorld) : Prop :=
  ∀ state shard subject, w.index.states env.registration.physicalIndexId = some state →
    shard ∈ state.shards → subject.shardId = shard.shardId → w.Touched env subject →
    (∀ value, (w.shards shard.shardId).history subject shard.acknowledgedThrough = some value →
      value ∈ w.held env subject) ∧
    ∀ value ∈ w.held env subject, ∃ n, shard.acknowledgedThrough ≤ n ∧
      n ≤ (w.shards shard.shardId).changes.length ∧
      (w.shards shard.shardId).history subject n = some value

theorem touched_subject_is_current (env : BuildEnv ρ) (events : List BuildEvent) :
    (events.foldl (BuildWorld.step env) (.initial env)).TouchedCurrent env := by
  intro state shard subject hstate hshard hsubject htouched
  obtain ⟨seeded, hbuild⟩ := (WorldInv.run env events).built state hstate
  have hfilled := hbuild.backfilled shard hshard subject hsubject
  refine ⟨hfilled.current htouched, fun value hvalue => ?_⟩
  rcases hfilled.ahead htouched value hvalue with hnow | ⟨e, hseeded, hlater, hthen⟩
  · exact ⟨_, le_rfl, hbuild.acked shard hshard, hnow⟩
  · exact ⟨e, hlater.le, hsubject ▸ (hbuild.exported subject e hseeded).2, hthen⟩

end

/-- One shard and one vertex: the page is exported after the second change and
applied before the first one is delivered. -/
def pageAheadOfChanges : List BuildEvent :=
  let vertex : IndexBuildSubject := .vertex 0 5
  [.change vertex (some [1]), .register, .registerScope 0, .preparePull, .change vertex (some [2]),
    .change vertex (some [3]), .exportPage 0 none, .applyPull 0, .deliver 0 1, .deliver 0 2,
    .deliver 0 2, .sealScope 0, .sealBuild 12]

def smallBuild : BuildEnv Nat where
  registration := ⟨7, 1, 1, 11, 0, .vertex 1 42 none, [0]⟩
  codec := ⟨fun _ => 0, fun _ => 0, fun _ => 0, fun _ => 0, fun r => r.removals.flatten, fun _ => 0,
    fun _ => []⟩
  router := 1
  shardCanister _ := some 2
  position _ := 1
  rank _ := 0

example : (pageAheadOfChanges.foldl (BuildWorld.step smallBuild) (.initial smallBuild)).index.postings =
      {posting 7 42 (.vertex 0 5) [3]} ∧
    ((pageAheadOfChanges.foldl (BuildWorld.step smallBuild) (.initial smallBuild)).index.states 7).any
      (fun state => state.done && state.lifecycle = .sealing 12 &&
        state.shards.all fun shard => shard.sealTarget = some shard.acknowledgedThrough) := by
  decide +kernel

end Gleaph.Build
