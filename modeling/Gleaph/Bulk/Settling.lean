import Gleaph.Bulk.Rules
import Gleaph.Bulk.Writes

/-!
# Gleaph.Bulk.Settling

What a settlement finds is true.

A row found committed is written, and a row found not written cannot become
written while the settlement runs (`settleUpdateRows_sound`).  A row with a
record has all rows before it written, so a settlement that has to wait for the
journal of a row has met no row that is not written (`Found.no_gap`): what it
has found before a call stays true after it.  A prefix that an abort accepts is
then all that was ever written of the chunk (`Found.closed`).
-/

namespace Gleaph.Bulk

open UpdateSettlement

/-! ## Outcomes -/

theorem appliedTargetOutcome_eq_committed :
    appliedTargetOutcome count = .ok .committed ↔ count = 1 := by
  unfold appliedTargetOutcome
  split <;> simp_all

theorem appliedTargetOutcome_eq_notWritten :
    appliedTargetOutcome count = .ok .notWritten ↔ count = 0 := by
  unfold appliedTargetOutcome
  split <;> simp_all

/-- What the fold knows of the outcomes: until the first gap all are committed,
and behind it nothing changes the prefix. -/
structure UpdateSettlement.Of (settlement : UpdateSettlement) (start : Nat)
    (outcomes : List UpdateRowOutcome) : Prop where
  full : settlement.gap = false → settlement.committed = start + outcomes.length
  committed : ∃ n, settlement.committed = start + n ∧
    (∀ i < n, outcomes[i]? = some .committed) ∧
    (settlement.unresolved = [] → settlement.unreadable = [] → settlement.committedAfterGap = false →
      ∀ i, n ≤ i → i < outcomes.length → outcomes[i]? = some .notWritten)

theorem settleOutcomes_of (start : Nat) (outcomes : List UpdateRowOutcome) :
    (settleOutcomes start outcomes).Of start outcomes := by
  induction outcomes using List.reverseRecOn with
  | nil => exact ⟨fun _ => rfl, 0, rfl, by simp, by simp⟩
  | append_singleton outcomes outcome ih =>
    obtain ⟨hfull, n, hn, hbefore, hbehind⟩ := ih
    have hlt : ∀ i < n, (outcomes ++ [outcome])[i]? = some .committed := by
      intro i hi
      have := hbefore i hi
      rw [List.getElem?_append_left (List.getElem?_eq_some_iff.mp this).1, this]
    rw [show settleOutcomes start (outcomes ++ [outcome]) = (settleOutcomes start outcomes).add
      (start + outcomes.length) outcome by simp [settleOutcomes, List.zipIdx_append]]
    cases outcome with
    | committed =>
      unfold add
      dsimp only
      split_ifs with hgap
      · exact ⟨fun hopen => absurd hgap (by simpa using hopen), n, hn, hlt, by simp⟩
      have hlen : n = outcomes.length := by
        have := hfull (by simpa using hgap)
        omega
      refine ⟨fun _ => by simp [Nat.add_assoc], n + 1, by simp [hlen, Nat.add_assoc], ?_, ?_⟩
      · intro i hi
        rcases Nat.lt_succ_iff_lt_or_eq.mp hi with hi | rfl
        · exact hlt i hi
        · simp [hlen]
      · intro _ _ _ i hle hi
        simp at hi
        omega
    | notWritten =>
      refine ⟨nofun, n, hn, hlt, fun hresolved hreadable hafter i hle hi => ?_⟩
      have hi : i < outcomes.length ∨ i = outcomes.length := by
        simp at hi
        omega
      rcases hi with hi | rfl
      · rw [List.getElem?_append_left hi]
        exact hbehind hresolved hreadable hafter i hle hi
      · simp
    | unresolved | unknown => exact ⟨nofun, n, hn, hlt, by simp [add]⟩

/-- The rows before the settled prefix were found committed. -/
theorem settleOutcomes_committed (hk : k < (settleOutcomes start outcomes).committed) :
    k < start ∨ ∃ i, k = start + i ∧ outcomes[i]? = some .committed := by
  obtain ⟨-, n, hn, hbefore, -⟩ := settleOutcomes_of start outcomes
  rcases Nat.lt_or_ge k start with hlt | hge
  · exact .inl hlt
  · exact .inr ⟨k - start, by omega, hbefore _ (by omega)⟩

/-! ## Rows -/

/-- No plan of the row can write it under the record it has. -/
def Unwritten (g : Graph) (rows : RowKey → Option RowRecord) (key : RowKey) : Prop :=
  ∀ record, rows key = some record →
    record.shard = none ∧ record.completedRowCount = none ∨ g.journal record.mutationId = some 0

section Rows

variable {g : Graph} {r : Router} {key : RowKey} {owner : BulkLoadChunkReceiptKey}
  {child : BulkLoadChunkReceipt} {start : Nat} {outcomes : List UpdateRowOutcome}

/-- The outcome of a record with an outcome is the one of its journal. -/
inductive Classifies (g : Graph) (record : RowRecord) : Classified → Prop where
  | failed (unsent : record.shard = none) (unfinished : record.completedRowCount = none) :
      Classifies g record (.known (.ok .notWritten))
  | counted {count} (entry : g.journal record.mutationId = some count) :
      Classifies g record (.known (appliedTargetOutcome count))
  | corrupt {e} : Classifies g record (.known (.error e))
  | unresolved : Classifies g record (.known (.ok .unresolved))
  | journal : Classifies g record (.journal record.mutationId)

theorem classifyUpdateRow_sound {s : Store} (h : RowSound g s key record) :
    Classifies g record (classifyUpdateRow (some record)) := by
  unfold classifyUpdateRow
  dsimp only
  split
  next hfailed =>
    unfold RowRecord.lifecyclePhase at hfailed
    split_ifs at hfailed with hcompleted hrouting
    split at hfailed
    next hshard => exact .failed hshard (by simpa using hcompleted)
    · split at hfailed <;> try split at hfailed
      all_goals cases hfailed
  -- Committed, projection pending and completed.
  iterate 3
    · split
      next hcount => exact .counted (h.completed hcount)
      next hshard =>
        split
        next hcompleted => exact .counted (h.captured hshard hcompleted)
        · exact .corrupt
      · exact .corrupt
  -- Routing and canonical pending.
  iterate 2
    · split
      · exact .unresolved
      · exact .journal

variable (h : r.Inv g)

include h

theorem classifyUpdateRow_committed
    (hclass : classifyUpdateRow (r.rows key) = .known (.ok .committed)) : Written g r.rows key := by
  cases hrecord : r.rows key with
  | none =>
    rw [hrecord] at hclass
    cases hclass
  | some record =>
    have hsound := classifyUpdateRow_sound (h.rows hrecord)
    rw [hrecord] at hclass
    rw [hclass] at hsound
    generalize hknown : Classified.known (.ok .committed) = known at hsound
    cases hsound with
    | counted hentry =>
      injection hknown with hknown
      exact ⟨record, hrecord, appliedTargetOutcome_eq_committed.mp hknown.symm ▸ hentry⟩
    | _ => cases hknown

theorem classifyUpdateRow_notWritten
    (hclass : classifyUpdateRow (r.rows key) = .known (.ok .notWritten)) : Unwritten g r.rows key := by
  intro record hrecord
  have hsound := classifyUpdateRow_sound (h.rows hrecord)
  rw [hrecord] at hclass
  rw [hclass] at hsound
  generalize hknown : Classified.known (.ok .notWritten) = known at hsound
  cases hsound with
  | failed hshard hcount => exact .inl ⟨hshard, hcount⟩
  | counted hentry =>
    injection hknown with hknown
    exact .inr (appliedTargetOutcome_eq_notWritten.mp hknown.symm ▸ hentry)
  | _ => cases hknown

theorem classifyUpdateRow_journal (hclass : classifyUpdateRow (r.rows key) = .journal mutationId) :
    ∃ record, r.rows key = some record ∧ record.mutationId = mutationId := by
  cases hrecord : r.rows key with
  | none =>
    rw [hrecord] at hclass
    cases hclass
  | some record =>
    have hsound := classifyUpdateRow_sound (h.rows hrecord)
    rw [hrecord] at hclass
    rw [hclass] at hsound
    generalize hknown : Classified.journal mutationId = known at hsound
    cases hsound with
    | journal =>
      injection hknown with hknown
      exact ⟨record, rfl, hknown.symm⟩
    | _ => cases hknown

variable (hchild : r.store.receiptAt owner = some child) (hpending : child.PendingUpdate)

include hchild hpending

/-- A row of a pending chunk that cannot be written has not been. -/
theorem Unwritten.writes_eq_zero (hrow : Unwritten g r.rows ⟨owner.chunkIndex, i⟩) :
    g.writes owner i = 0 := by
  refine (h.pending hchild hpending).noWrites ?_
  rintro ⟨record, hrecord, hentry⟩
  rcases hrow record hrecord with ⟨hshard, hcount⟩ | hzero
  · cases hentry.symm.trans ((h.rows hrecord).unsent hshard hcount)
  · cases hentry.symm.trans hzero

/-- A chunk whose first rows are written, and whose other rows cannot be, may
be completed with their number. -/
theorem Router.Inv.closed (hwritten : ∀ k < count, g.writes owner k = 1)
    (hrest : ∀ k, count ≤ k → Unwritten g r.rows ⟨owner.chunkIndex, k⟩) :
    Router.Closed g r owner count where
  writes i := by
    split_ifs with hi
    · exact hwritten i hi
    · exact (hrest i (not_lt.mp hi)).writes_eq_zero h hchild hpending
  calls call hcall hchunk hnone := by
    obtain ⟨-, record, hrecord, hid, howner, hshard⟩ := (h.calls call hcall).2 hnone
    have hkey : call.key = ⟨owner.chunkIndex, call.key.ordinal⟩ := by
      rw [← hchunk, ← howner, (h.rows hrecord).chunk]
    rcases Nat.lt_or_ge call.key.ordinal count with hlt | hge
    · -- A written row has its entry under the record it has.
      have hone := hwritten _ hlt
      by_cases hw : Written g r.rows ⟨owner.chunkIndex, call.key.ordinal⟩
      · obtain ⟨record', hrecord', hentry⟩ := hw
        rw [← hkey, hrecord] at hrecord'
        cases hrecord'
        rw [hid, hnone] at hentry
        cases hentry
      · rw [(h.pending hchild hpending).noWrites hw] at hone
        cases hone
    · rcases hrest _ hge record (hkey ▸ hrecord) with ⟨hunsent, -⟩ | hzero
      · simp [hunsent] at hshard
      · rw [hid, hnone] at hzero
        cases hzero

end Rows

/-! ## Settlements -/

/-- The outcomes of the rows from `start` on are true, and those before are
written. -/
structure Found (g : Graph) (rows : RowKey → Option RowRecord) (owner : BulkLoadChunkReceiptKey)
    (start : Nat) (outcomes : List UpdateRowOutcome) : Prop where
  before : ∀ k < start, g.writes owner k = 1
  committed : ∀ {i}, outcomes[i]? = some .committed → g.writes owner (start + i) = 1
  notWritten : ∀ {i}, outcomes[i]? = some .notWritten →
    Unwritten g rows ⟨owner.chunkIndex, start + i⟩

/-- What a settlement has found that waits for the journal of a row. -/
structure Waits (g : Graph) (rows : RowKey → Option RowRecord) (owner : BulkLoadChunkReceiptKey)
    (start : Nat) (outcomes : List UpdateRowOutcome) (ordinal mutationId : Nat) : Prop where
  place : ordinal = start + outcomes.length
  before : ∀ k < start, g.writes owner k = 1
  committed : ∀ {i}, outcomes[i]? = some .committed → g.writes owner (start + i) = 1
  noGap : .notWritten ∉ outcomes
  record : ∃ record, rows ⟨owner.chunkIndex, ordinal⟩ = some record ∧ record.mutationId = mutationId

/-- What a settlement has found, at its end or where it waits. -/
def Settling.Sound (g : Graph) (rows : RowKey → Option RowRecord) (owner : BulkLoadChunkReceiptKey)
    (start total : Nat) : Settling → Prop
  | .failed _ => True
  | .reading outcomes ordinal mutationId => Waits g rows owner start outcomes ordinal mutationId
  | .settled outcomes => Found g rows owner start outcomes ∧ outcomes.length = total

section Settlements

variable {g : Graph} {r : Router} {owner : BulkLoadChunkReceiptKey} {child : BulkLoadChunkReceipt}
  {start : Nat} {outcomes : List UpdateRowOutcome}

theorem Found.nil (h : ∀ k < start, g.writes owner k = 1) : Found g rows owner start [] :=
  ⟨h, by simp, by simp⟩

theorem Found.concat (h : Found g rows owner start outcomes)
    (hcommitted : outcome = .committed → g.writes owner (start + outcomes.length) = 1)
    (hnotWritten : outcome = .notWritten →
      Unwritten g rows ⟨owner.chunkIndex, start + outcomes.length⟩) :
    Found g rows owner start (outcomes ++ [outcome]) := by
  have hsplit : ∀ {i o}, (outcomes ++ [outcome])[i]? = some o →
      outcomes[i]? = some o ∨ i = outcomes.length ∧ outcome = o := by
    intro i o ho
    rcases Nat.lt_or_ge i outcomes.length with hlt | hge
    · rw [List.getElem?_append_left hlt] at ho
      exact .inl ho
    rw [List.getElem?_append_right hge, List.getElem?_singleton] at ho
    split_ifs at ho with hi
    cases ho
    exact .inr ⟨by omega, rfl⟩
  refine ⟨h.before, fun {i} ho => ?_, fun {i} ho => ?_⟩
  · rcases hsplit ho with hbefore | ⟨rfl, hlast⟩
    · exact h.committed hbefore
    · exact hcommitted hlast
  · rcases hsplit ho with hbefore | ⟨rfl, hlast⟩
    · exact h.notWritten hbefore
    · exact hnotWritten hlast

/-- The rows of the settled prefix are written. -/
theorem Found.writes_of_lt (h : Found g rows owner start outcomes)
    (hk : k < (settleOutcomes start outcomes).committed) : g.writes owner k = 1 := by
  rcases settleOutcomes_committed hk with hlt | ⟨i, rfl, ho⟩
  · exact h.before k hlt
  · exact h.committed ho

variable (h : r.Inv g) (hchild : r.store.receiptAt owner = some child)
  (hpending : child.PendingUpdate)

include h hchild hpending

/-- A row with a record has no row before it that is not written. -/
theorem Found.no_gap (hfound : Found g r.rows owner start outcomes)
    (hrecord : r.rows ⟨owner.chunkIndex, start + outcomes.length⟩ = some record) :
    .notWritten ∉ outcomes := by
  intro hmem
  obtain ⟨i, hi, heq⟩ := List.getElem_of_mem hmem
  have hzero := (hfound.notWritten (List.getElem?_eq_some_iff.mpr ⟨hi, heq⟩)).writes_eq_zero h hchild
    hpending
  have hone := (h.pending hchild hpending).order hrecord (start + i) (by omega)
  rw [hzero] at hone
  cases hone

/-- The rows a settlement runs over: by the number of rows that are left. -/
theorem settleUpdateRows_sound (count : Nat) :
    ∀ {outcomes}, Found g r.rows owner start outcomes →
      (settleUpdateRows r.rows owner.chunkIndex outcomes (start + outcomes.length) count).Sound g r.rows
        owner start (outcomes.length + count) := by
  induction count with
  | zero => exact fun hfound => ⟨hfound, rfl⟩
  | succ count ih =>
    intro outcomes hfound
    unfold settleUpdateRows
    cases hclass : classifyUpdateRow (r.rows ⟨owner.chunkIndex, start + outcomes.length⟩) with
    | journal mutationId =>
      obtain ⟨record, hrecord, hid⟩ := classifyUpdateRow_journal h hclass
      exact ⟨rfl, hfound.before, hfound.committed, hfound.no_gap h hchild hpending hrecord, record,
        hrecord, hid⟩
    | known result =>
      cases result with
      | error e => trivial
      | ok outcome =>
        have hnext := ih (hfound.concat
          (fun ho => (h.pending hchild hpending).writes (classifyUpdateRow_committed h (ho ▸ hclass)))
          fun ho => classifyUpdateRow_notWritten h (ho ▸ hclass))
        have htotal : outcomes.length + 1 + count = outcomes.length + (count + 1) := by omega
        rw [List.length_append, List.length_singleton, htotal, ← Nat.add_assoc start] at hnext
        exact hnext

/-- The journal a settlement has waited for was read. -/
theorem Waits.read (hwaits : Waits g r.rows owner start outcomes ordinal mutationId)
    (hread : readOutcome g mutationId reply = some (.ok outcome)) :
    Found g r.rows owner start (outcomes ++ [outcome]) := by
  obtain ⟨rfl, hbefore, hcommitted, hnoGap, record, hrecord, hid⟩ := hwaits
  have hfound : Found g r.rows owner start outcomes :=
    ⟨hbefore, hcommitted, fun ho => absurd (List.mem_of_getElem? ho) hnoGap⟩
  -- Only an entry of the journal makes the row committed or not written.
  have hentry : ∀ {outcome'}, outcome = outcome' → outcome' = .committed ∨ outcome' = .notWritten →
      ∃ count, g.journal mutationId = some count ∧ appliedTargetOutcome count = .ok outcome' := by
    rintro _ rfl hkind
    unfold readOutcome at hread
    split at hread
    next read =>
      injection hread with hread
      cases hentry : g.read mutationId read with
      | none =>
        rw [hentry] at hread
        cases hread
        rcases hkind with hkind | hkind <;> cases hkind
      | some count =>
        rw [hentry] at hread
        exact ⟨count, Graph.read_eq_some hentry, hread⟩
    · cases hread
      rcases hkind with hkind | hkind <;> cases hkind
    · cases hread
  refine hfound.concat (fun ho => ?_) fun ho => ?_
  · obtain ⟨count, hcount, happlied⟩ := hentry ho (.inl rfl)
    cases appliedTargetOutcome_eq_committed.mp happlied
    exact (h.pending hchild hpending).writes ⟨record, hrecord, hid ▸ hcount⟩
  obtain ⟨count, hcount, happlied⟩ := hentry ho (.inr rfl)
  cases appliedTargetOutcome_eq_notWritten.mp happlied
  intro record' hrecord'
  cases hrecord.symm.trans hrecord'
  exact .inr (hid ▸ hcount)

/-- An abort of a chunk whose rows are all settled may complete it. -/
theorem Found.closed (hfound : Found g r.rows owner start outcomes)
    (hids : child.resolvedUpdateVertexIds = some ids) (hall : ids.length ≤ start + outcomes.length)
    (hok : (settleOutcomes start outcomes).abortPrefix = .ok settled) :
    Router.Closed g r owner settled := by
  obtain ⟨-, n, hn, -, hbehind⟩ := settleOutcomes_of start outcomes
  unfold abortPrefix at hok
  split_ifs at hok with hopen hafter
  cases hok
  push Not at hopen
  refine h.closed hchild hpending (fun k => hfound.writes_of_lt) fun k hk => ?_
  rcases Nat.lt_or_ge k (start + outcomes.length) with hlt | hge
  · have hkey : start + (k - start) = k := by omega
    exact hkey ▸ hfound.notWritten
      (hbehind hopen.1 hopen.2 (by simpa using hafter) (k - start) (by omega) (by omega))
  intro record hrecord
  obtain ⟨ids', hids', hrows⟩ := (h.pending hchild hpending).ids
  cases hids.symm.trans hids'
  have := hrows hrecord
  omega

end Settlements

end Gleaph.Bulk
