import Gleaph.Layout
import Gleaph.Postings.Reader

/-!
# Gleaph.Postings.Merge

The resumable k-way merge of posting runs
(`crates/ic-stable-text-postings/src/merge.rs`).

Between two rounds every run stands before its first docid from a common bound
on, the one behind the last docid emitted (`MergeState.At`).  A round moves the
bound; a state rebuilt from the bytes of its cursor stands at the same bound.
-/

namespace Gleaph.Postings

open PostingReader List

/-! ## The saved position -/

structure MergeCursor where
  positions : List Nat
  lastEmitted : Option Nat
  deriving DecidableEq, Repr

namespace MergeCursor

/-- The presence tag and the last docid. -/
def tagBytes : Option Nat → List UInt8
  | none => [0]
  | some id => 1 :: leBytes 4 id

def toBytes (c : MergeCursor) : List UInt8 :=
  leBytes 4 (c.positions.length % 2 ^ 32) ++
    (c.positions.flatMap (leBytes 4) ++ tagBytes c.lastEmitted)

def fromBytes (bytes : List UInt8) : Except String MergeCursor := do
  if bytes.length < 4 then throw "corrupt merge cursor: header truncated"
  let k ← readWord "fixed-size header" 4 bytes 0
  let tagPos := 4 + k * 4
  let totalLen ← match bytes[tagPos]? with
    | some 0 => pure (tagPos + 1)
    | some 1 => pure (tagPos + 5)
    | _ => throw "corrupt merge cursor: unknown presence tag"
  if bytes.length ≠ totalLen then throw "corrupt merge cursor: length mismatch"
  let positions ← (List.range k).mapM fun i => readWord "fixed-size field" 4 bytes (4 + i * 4)
  match bytes[tagPos]? with
  | some 0 => return ⟨positions, none⟩
  | _ => return ⟨positions, some (← readWord "fixed-size field" 4 bytes (tagPos + 1))⟩

/-- Every value of the cursor fits into its field. -/
structure Fits (c : MergeCursor) : Prop where
  count : c.positions.length < 2 ^ 32
  position : ∀ p ∈ c.positions, p < 2 ^ 32
  last : ∀ id ∈ c.lastEmitted, id < 2 ^ 32

/-- A stored 32-bit field reads back. -/
theorem readWord_field (message : String) (h : Holds data off (leBytes 4 n)) (hn : n < 2 ^ 32) :
    readWord message 4 data off = .ok n := by
  rw [h.readWord_eq, Nat.mod_eq_of_lt (show n < 256 ^ 4 from hn)]

/-- A cursor whose counts fit is read back. -/
theorem fromBytes_toBytes (h : c.Fits) : fromBytes c.toBytes = .ok c := by
  obtain ⟨positions, last⟩ := c
  have hall := Holds.of_eq (rfl : toBytes ⟨positions, last⟩ = _)
  have hwidth : ∀ p ∈ positions, (leBytes 4 p).length = 4 := fun p _ => length_leBytes 4 p
  have htag := hall.right.right
  rw [length_leBytes, Holds.length_flatMap_of_width hwidth, Nat.zero_add] at htag
  have hfields : (List.range positions.length).mapM
      (fun i => readWord "fixed-size field" 4 (toBytes ⟨positions, last⟩) (4 + i * 4)) =
        .ok positions := by
    rw [mapM_eq_ok (g := fun i => positions.getD i 0) fun i hi => ?_]
    · exact congrArg _ (ext_getElem (by simp) fun i hi hi' => by simp [hi'])
    have hget := getElem?_eq_getElem (mem_range.mp hi)
    have hentry := hall.right.left.entry hwidth hget
    rw [length_leBytes, Nat.zero_add] at hentry
    rw [readWord_field _ hentry (h.position _ (mem_of_getElem? hget)),
      getD_eq_getElem?_getD, hget, Option.getD_some]
  have hk := readWord_field "fixed-size header" hall.left (Nat.mod_lt _ (by decide))
  rw [Nat.mod_eq_of_lt h.count] at hk
  have hlen : (toBytes ⟨positions, last⟩).length =
      4 + positions.length * 4 + (tagBytes last).length := by
    rw [toBytes, length_append, length_append, length_leBytes,
      Holds.length_flatMap_of_width hwidth, Nat.add_assoc]
  rw [fromBytes, if_neg (by omega), hk, ok_bind]
  cases last with
  | none =>
    have hhead := htag.head
    simp only [tagBytes, length_singleton] at hlen
    simp only [hhead]
    simp [hlen, hfields]
  | some id =>
    have hhead := htag.head
    have hid := readWord_field "fixed-size field" htag.tail (h.last id rfl)
    simp only [tagBytes, length_cons, length_leBytes] at hlen
    simp only [hhead]
    simp [hlen, hfields, hid]

end MergeCursor

/-! ## The merge -/

structure MergeState (R : Type) where
  runs : List R
  lastEmitted : Option Nat

namespace MergeState

variable {R : Type} [PostingReader R]

def new (runs : List R) : MergeState R := ⟨runs, none⟩

/-- A run's consumed postings are read again. -/
def replay : Nat → R → Except String R
  | 0, run => .ok run
  | consumed + 1, run => do
    let (docid, run) ← next run
    if docid.isNone then throw "corrupt merge cursor: position beyond run"
    replay consumed run

def restore (runs : List R) (cursor : MergeCursor) : Except String (MergeState R) := do
  if runs.length ≠ cursor.positions.length then throw "corrupt merge cursor: run count mismatch"
  let runs ← (runs.zip cursor.positions).mapM fun (run, consumed) => replay consumed run
  return ⟨runs, cursor.lastEmitted⟩

/-- The smaller docid of two, of those that there are. -/
def smaller : Option Nat → Option Nat → Option Nat
  | acc, none => acc
  | none, some v => some v
  | some m, some v => some (min m v)

/-- The smallest docid before a run. -/
def foldMin : Option Nat → List R → Except String (Option Nat × List R)
  | acc, [] => .ok (acc, [])
  | acc, run :: runs => do
    let (head, run) ← peek run
    let (least, runs) ← foldMin (smaller acc head) runs
    return (least, run :: runs)

/-- A run that stands before the docid consumes it. -/
def pass (least : Nat) (run : R) : Except String R := do
  let (head, run) ← peek run
  if head = some least then
    let (_, run) ← next run
    return run
  else return run

/-- The loop of `merge_step`. -/
def mergeLoop (outBudget : Nat) :
    Nat → Nat → MergeState R → List Nat → Except String (Nat × MergeState R × List Nat)
  | 0, emitted, state, out => .ok (emitted, state, out)
  | fuel + 1, emitted, state, out => do
    if emitted < outBudget then
      let (least, runs) ← foldMin none state.runs
      match least with
      | none => return (emitted, ⟨runs, state.lastEmitted⟩, out)
      | some least =>
        let runs ← runs.mapM (pass least)
        if state.lastEmitted ≠ some least then
          mergeLoop outBudget fuel (emitted + 1) ⟨runs, some least⟩ (out ++ [least])
        else mergeLoop outBudget fuel emitted ⟨runs, some least⟩ out
    else return (emitted, state, out)

/-- `merge_step`; every round but the last consumes a posting. -/
def mergeStep (state : MergeState R) (outBudget : Nat) (out : List Nat) :
    Except String (Nat × MergeState R × List Nat) :=
  mergeLoop outBudget ((state.runs.map len).sum + 1) 0 state out

def cursor (state : MergeState R) : MergeCursor :=
  ⟨state.runs.map pos, state.lastEmitted⟩

/-- Steps with their budgets; behind a step marked so the state is dropped and
rebuilt over fresh readers. -/
def runSteps (fresh : List R) :
    List (Nat × Bool) → MergeState R → List Nat → Except String (List Nat)
  | [], _, out => .ok out
  | (outBudget, suspended) :: steps, state, out => do
    let (_, state, out) ← state.mergeStep outBudget out
    if suspended then
      let cursor ← MergeCursor.fromBytes state.cursor.toBytes
      runSteps fresh steps (← restore fresh cursor) out
    else runSteps fresh steps state out

end MergeState

open MergeState

/-! ## The docids to come -/

/-- The docids of a run. -/
def docsOf (run : List Posting) : List Nat := run.map Prod.fst

/-- The docids of the runs from the bound on. -/
def pending (runs : List (List Posting)) (bound : Nat) : Finset Nat :=
  (runs.flatMap docsOf).toFinset.filter (bound ≤ ·)

/-- The union of the runs from the bound on, each docid once and in order. -/
def unionFrom (runs : List (List Posting)) (bound : Nat) : List Nat :=
  (pending runs bound).sort (· ≤ ·)

/-- The union of the runs. -/
def unionOf (runs : List (List Posting)) : List Nat := unionFrom runs 0

/-- The least element of a set, if it has one. -/
def Least (S : Set Nat) : Option Nat → Prop
  | none => S = ∅
  | some m => IsLeast S m

/-- The smaller of two least docids is the least of both sets. -/
theorem Least.union (ha : Least S a) (hb : Least T b) : Least (S ∪ T) (smaller a b) := by
  cases b with
  | none =>
    rw [show T = ∅ from hb, Set.union_empty]
    cases a <;> exact ha
  | some v =>
    cases a with
    | none =>
      rw [show S = ∅ from ha, Set.empty_union]
      exact hb
    | some m => exact IsLeast.union ha hb

@[simp] theorem length_docsOf (run : List Posting) : (docsOf run).length = run.length :=
  length_map _

/-- Pending are the docids of the runs from the bound on. -/
theorem mem_pending {runs : List (List Posting)} :
    d ∈ pending runs bound ↔ (∃ run ∈ runs, d ∈ docsOf run) ∧ bound ≤ d := by
  simp [pending]

/-- The union starts with the least docid that is pending. -/
theorem unionFrom_eq_cons {runs : List (List Posting)}
    (h : IsLeast (pending runs bound : Set Nat) least) :
    unionFrom runs bound = least :: unionFrom runs (least + 1) := by
  obtain ⟨hmem, hle⟩ := h
  have hinsert : pending runs bound = insert least (pending runs (least + 1)) := by
    ext d
    have := @hle d
    simp only [Finset.mem_coe, Finset.mem_insert, mem_pending] at hmem this ⊢
    grind
  rw [unionFrom, hinsert, Finset.sort_insert]
  · rfl
  · exact fun d hd => Nat.le_of_succ_le (mem_pending.mp hd).2
  · simp [mem_pending]

/-! ## One run -/

section Run

variable {R : Type} [PostingReader R] {Rel : R → Cursor → Prop} {run : List Posting} {bound j : Nat}

/-- A reader stands before the first docid of its run from the bound on. -/
def StandsAt (Rel : R → Cursor → Prop) (bound : Nat) (reader : R) (run : List Posting) : Prop :=
  run.length < 2 ^ 32 ∧ ∃ j, Rel reader (Cursor.seek run j) ∧ Lands (docsOf run) bound 0 j

/-- The cursor behind `j` postings peeks at the next docid. -/
theorem peek_seek (run : List Posting) (j : Nat) : (Cursor.seek run j).peek = (docsOf run)[j]? := by
  simp [Cursor.peek, Cursor.seek, docsOf]

/-- The docid a run stands before is its least from the bound on. -/
theorem Lands.least (h : Lands docs bound 0 j) (hdocs : docs.Pairwise (· < ·)) :
    Least {d | d ∈ docs ∧ bound ≤ d} docs[j]? := by
  have hbehind : ∀ {d}, d ∈ docs → bound ≤ d → ∃ i, j ≤ i ∧ docs[i]? = some d := by
    intro d hd hle
    obtain ⟨i, hi⟩ := mem_iff_getElem?.mp hd
    refine ⟨i, ?_, hi⟩
    by_contra hlt
    have := h.below i d (Nat.zero_le i) (Nat.not_le.mp hlt) hi
    omega
  cases hj : docs[j]? with
  | none =>
    refine Set.eq_empty_of_forall_notMem fun d hd => ?_
    obtain ⟨i, hle, hi⟩ := hbehind hd.1 hd.2
    have := getElem?_eq_none_iff.mp hj
    have := (List.getElem?_eq_some_iff.mp hi).1
    omega
  | some m =>
    refine ⟨⟨mem_of_getElem? hj, h.reached m hj⟩, fun d hd => ?_⟩
    obtain ⟨i, hle, hi⟩ := hbehind hd.1 hd.2
    obtain ⟨hlt, rfl⟩ := List.getElem?_eq_some_iff.mp hj
    obtain ⟨hlt', rfl⟩ := List.getElem?_eq_some_iff.mp hi
    rcases Nat.eq_or_lt_of_le hle with rfl | hlt''
    · exact Nat.le_refl _
    · exact (pairwise_iff_getElem.mp hdocs j i hlt hlt' hlt'').le

/-- Passing the least docid moves the readers that stand on it, and only those.
-/
theorem pass_eq (hRel : Simulates Rel) (hdocs : (docsOf run).Pairwise (· < ·)) (hle : bound ≤ least)
    (hleast : ∀ d ∈ docsOf run, bound ≤ d → least ≤ d) (hat : StandsAt Rel bound reader run) :
    ∃ reader', MergeState.pass least reader = .ok reader' ∧ StandsAt Rel (least + 1) reader' run := by
  obtain ⟨hlength, j, hreader, hlands⟩ := hat
  obtain ⟨r1, hpeek, hr1⟩ := hRel.peek hreader
  rw [peek_seek] at hpeek
  have hbelow : ∀ i d, 0 ≤ i → i < j → (docsOf run)[i]? = some d → d < least + 1 :=
    fun i d hi hij hd => (hlands.below i d hi hij hd).trans_le (hle.trans (Nat.le_succ least))
  by_cases hhead : (docsOf run)[j]? = some least
  · obtain ⟨hj, hget⟩ := List.getElem?_eq_some_iff.mp hhead
    have hlen : j < run.length := by simpa using hj
    obtain ⟨r2, hnext, hr2⟩ := hRel.next hr1
    rw [Cursor.seek_tail hlen.le, Nat.min_eq_left hlen] at hr2
    refine ⟨r2, by simp [MergeState.pass, hpeek, hhead, hnext], hlength, j + 1, hr2,
      Nat.zero_le _, hj, ?_, ?_⟩
    · intro i d hi hij hd
      rcases Nat.eq_or_lt_of_le (Nat.le_of_lt_succ hij) with rfl | hlt
      · cases hhead.symm.trans hd
        exact Nat.lt_succ_self _
      · exact hbelow i d hi hlt hd
    · intro d hd
      obtain ⟨hj', rfl⟩ := List.getElem?_eq_some_iff.mp hd
      rw [← hget]
      exact pairwise_iff_getElem.mp hdocs j (j + 1) hj hj' (Nat.lt_succ_self j)
  · refine ⟨r1, by simp [MergeState.pass, hpeek, hhead], hlength, j, hr1, Nat.zero_le _,
      hlands.le_length, hbelow, fun d hd => ?_⟩
    have := hleast d (mem_of_getElem? hd) (hlands.reached d hd)
    have : d ≠ least := fun heq => hhead (heq ▸ hd)
    omega

/-- Replaying what was consumed brings a fresh reader to where it was. -/
theorem replay_eq (hRel : Simulates Rel) (hreader : Rel reader (Cursor.seek run i))
    (hle : i + consumed ≤ run.length) :
    ∃ reader', replay consumed reader = .ok reader' ∧
      Rel reader' (Cursor.seek run (i + consumed)) := by
  induction consumed generalizing i reader with
  | zero => exact ⟨reader, rfl, hreader⟩
  | succ consumed ih =>
    obtain ⟨r1, hnext, hr1⟩ := hRel.next hreader
    rw [Cursor.seek_tail (by omega), Nat.min_eq_left (by omega)] at hr1
    obtain ⟨r2, hreplay, hr2⟩ := ih hr1 (by omega)
    rw [Nat.add_right_comm] at hr2
    rw [peek_seek, getElem?_eq_getElem (by rw [length_docsOf]; omega)] at hnext
    exact ⟨r2, by simp [replay, hnext, hreplay], hr2⟩

end Run

/-! ## All runs -/

section Merge

variable {R : Type} [PostingReader R] {Rel : R → Cursor → Prop} {runs : List (List Posting)}
  {bound : Nat} {state : MergeState R} {fresh : List R}

/-- Runs of postings, and fresh readers of them. -/
structure FreshRuns (Rel : R → Cursor → Prop) (runs : List (List Posting)) (fresh : List R) :
    Prop where
  readers : List.Forall₂ (fun reader run => run.length < 2 ^ 32 ∧ Rel reader (Cursor.start run))
    fresh runs
  increasing : ∀ run ∈ runs, (docsOf run).Pairwise (· < ·)
  docid_lt : ∀ run ∈ runs, ∀ d ∈ docsOf run, d < 2 ^ 32

/-- Everything below the bound is out. -/
structure MergeState.At (Rel : R → Cursor → Prop) (runs : List (List Posting)) (bound : Nat)
    (state : MergeState R) : Prop where
  readers : List.Forall₂ (StandsAt Rel bound) state.runs runs
  last : ∀ id ∈ state.lastEmitted, id < bound ∧ id < 2 ^ 32

omit [PostingReader R] in
/-- A new merge is at the start of the runs. -/
theorem new_at (hfresh : FreshRuns Rel runs fresh) : (MergeState.new fresh).At Rel runs 0 :=
  ⟨hfresh.readers.imp fun _ _ hrun =>
    ⟨hrun.1, 0, hrun.2, .refl (Nat.zero_le _) fun _ _ => Nat.zero_le _⟩, nofun⟩

/-- The fold over the readers finds the least docid that is pending. -/
theorem foldMin_eq (hRel : Simulates Rel) (hrs : List.Forall₂ (StandsAt Rel bound) rs runs)
    (hdocs : ∀ run ∈ runs, (docsOf run).Pairwise (· < ·)) (hacc : Least S acc) :
    ∃ least rs', foldMin acc rs = .ok (least, rs') ∧
      Least (S ∪ pending runs bound) least ∧ List.Forall₂ (StandsAt Rel bound) rs' runs := by
  induction hrs generalizing acc S with
  | nil => exact ⟨acc, [], rfl, by simpa [pending] using hacc, .nil⟩
  | @cons reader run rs runs hat _ ih =>
    obtain ⟨hlength, j, hreader, hlands⟩ := hat
    obtain ⟨r1, hpeek, hr1⟩ := hRel.peek hreader
    rw [peek_seek] at hpeek
    obtain ⟨least, rs', hfold, hmin, hrs'⟩ := ih (fun run hrun => hdocs run (by simp [hrun]))
      (hacc.union (hlands.least (hdocs run (by simp))))
    refine ⟨least, r1 :: rs', by simp [foldMin, hpeek, hfold], ?_,
      .cons ⟨hlength, j, hr1, hlands⟩ hrs'⟩
    convert hmin using 1
    ext d
    simp only [Set.mem_union, Finset.mem_coe, mem_pending, exists_mem_cons_iff,
      Set.mem_ofPred_eq]
    tauto

/-- The positions of the runs. -/
theorem positions_land (hRel : Simulates Rel) (hat : state.At Rel runs bound) :
    List.Forall₂ (fun consumed run => consumed < 2 ^ 32 ∧ Lands (docsOf run) bound 0 consumed)
      state.cursor.positions runs :=
  forall₂_map_left_iff.mpr <| hat.readers.imp fun _ _ ⟨hlength, j, hreader, hlands⟩ => by
    rw [hRel.pos hreader]
    exact ⟨hlands.le_length.trans_lt (by simpa using hlength), hlands⟩

section Steps

variable (hRel : Simulates Rel) (hfresh : FreshRuns Rel runs fresh)

include hRel hfresh

/-- A step emits the next docids of the union. -/
theorem mergeLoop_eq {outBudget fuel emitted : Nat} (hat : state.At Rel runs bound) (out : List Nat)
    (hfuel : (pending runs bound).card < fuel) :
    ∃ count state' bound', mergeLoop outBudget fuel emitted state out =
        .ok (count, state', out ++ (unionFrom runs bound).take (outBudget - emitted)) ∧
      state'.At Rel runs bound' ∧ unionFrom runs bound' =
        (unionFrom runs bound).drop (outBudget - emitted) := by
  induction fuel generalizing emitted state bound out with
  | zero => omega
  | succ fuel ih =>
    rw [mergeLoop]
    by_cases hbudget : emitted < outBudget
    · obtain ⟨least, rs, hfold, hleast, hrs⟩ := foldMin_eq hRel hat.readers hfresh.increasing
        (show Least ∅ none from rfl)
      rw [Set.empty_union] at hleast
      rw [if_pos hbudget, hfold, ok_bind]
      cases least with
      | none =>
        have hempty : pending runs bound = ∅ := Finset.coe_eq_empty.mp hleast
        exact ⟨emitted, ⟨rs, state.lastEmitted⟩, bound, by simp [unionFrom, hempty],
          ⟨hrs, hat.last⟩, by simp [unionFrom, hempty]⟩
      | some least =>
        obtain ⟨⟨run, hrun, hd⟩, hle⟩ := mem_pending.mp (Finset.mem_coe.mp hleast.1)
        obtain ⟨rs', hpass, hrs'⟩ := mapM_forall₂ hrs fun _ run hrun =>
          pass_eq hRel (hfresh.increasing run hrun) hle fun d hd hle =>
            hleast.2 (mem_pending.mpr ⟨⟨run, hrun, hd⟩, hle⟩)
        have hne : state.lastEmitted ≠ some least := fun heq => by
          have := (hat.last least heq).1
          omega
        have hat' : MergeState.At Rel runs (least + 1) ⟨rs', some least⟩ :=
          ⟨hrs', by rintro _ ⟨⟩; exact ⟨Nat.lt_succ_self _, hfresh.docid_lt run hrun _ hd⟩⟩
        have hcons := unionFrom_eq_cons hleast
        have hcard := congrArg List.length hcons
        simp only [unionFrom, length_cons, Finset.length_sort] at hcard
        obtain ⟨count, state', bound', hloop, hat'', hdrop⟩ :=
          @ih _ _ (emitted + 1) hat' (out ++ [least]) (by omega)
        obtain ⟨n, hn⟩ : ∃ n, outBudget - emitted = n + 1 := ⟨outBudget - emitted - 1, by omega⟩
        rw [show outBudget - (emitted + 1) = n by omega] at hloop hdrop
        refine ⟨count, state', bound', ?_, hat'', by rw [hdrop, hcons, hn, drop_succ_cons]⟩
        simp [hpass, ok_bind, if_pos hne, hloop, hcons, hn]
    · have hzero : outBudget - emitted = 0 := by omega
      exact ⟨emitted, state, bound, by simp [hbudget, hzero], hat, by simp [hzero]⟩

/-- A step writes the next docids of the union, at most as many as its budget,
and leaves the merge behind them. -/
theorem mergeStep_eq (hat : state.At Rel runs bound) (outBudget : Nat) (out : List Nat) :
    ∃ count state' bound', state.mergeStep outBudget out =
        .ok (count, state', out ++ (unionFrom runs bound).take outBudget) ∧
      state'.At Rel runs bound' ∧ unionFrom runs bound' =
        (unionFrom runs bound).drop outBudget := by
  refine mergeLoop_eq hRel hfresh hat out (Nat.lt_succ_of_le ?_)
  have hlen : state.runs.map len = runs.map fun run => (docsOf run).length := by
    refine forall₂_eq_eq_eq ▸ forall₂_map_left_iff.mpr (forall₂_map_right_iff.mpr
      (hat.readers.imp fun _ _ ⟨_, j, hreader, hlands⟩ => ?_))
    rw [hRel.len hreader, Cursor.seek, length_drop, ← length_docsOf]
    exact Nat.add_sub_cancel' hlands.le_length
  rw [hlen, ← length_flatMap]
  exact (Finset.card_filter_le _ _).trans (toFinset_card_le _)

/-- A state rebuilt from the bytes of its cursor stands where it stood. -/
theorem restore_eq (hcount : runs.length < 2 ^ 32) (hat : state.At Rel runs bound) :
    ∃ cursor state', MergeCursor.fromBytes state.cursor.toBytes = .ok cursor ∧
      restore fresh cursor = .ok state' ∧ state'.At Rel runs bound := by
  have hpositions := positions_land hRel hat
  have hfits : state.cursor.Fits :=
    ⟨hpositions.length_eq ▸ hcount, ((forall₂_and_left _ _).mp hpositions).1,
      fun id hid => (hat.last id hid).2⟩
  obtain ⟨rs, hrs, hat'⟩ := mapM_forall₂ (f := fun entry => replay entry.2 entry.1)
    (Q := StandsAt Rel bound) (forall₂_zip_of_forall₂ hfresh.readers hpositions)
    fun entry run _ ⟨⟨hlength, hreader⟩, _, hlands⟩ => by
      have hle : 0 + entry.2 ≤ run.length := by simpa using hlands.le_length
      obtain ⟨r1, hreplay, hr1⟩ := replay_eq hRel hreader hle
      rw [Nat.zero_add] at hr1
      exact ⟨r1, hreplay, hlength, entry.2, hr1, hlands⟩
  refine ⟨state.cursor, ⟨rs, state.lastEmitted⟩, MergeCursor.fromBytes_toBytes hfits, ?_, hat',
    hat.last⟩
  rw [restore, if_neg (by simp [hfresh.readers.length_eq, hpositions.length_eq]), hrs]
  rfl

/-- Steps, suspended or not, write the union up to the sum of their budgets. -/
theorem runSteps_eq (hcount : runs.length < 2 ^ 32) (steps : List (Nat × Bool))
    (hat : state.At Rel runs bound) (out : List Nat) : runSteps fresh steps state out =
      .ok (out ++ (unionFrom runs bound).take (steps.map Prod.fst).sum) := by
  induction steps generalizing state bound out with
  | nil => simp [runSteps]
  | cons step steps ih =>
    obtain ⟨outBudget, suspended⟩ := step
    obtain ⟨count, state', bound', hstep, hat', hdrop⟩ := mergeStep_eq hRel hfresh hat outBudget out
    rw [runSteps, hstep, ok_bind, map_cons, sum_cons, take_add,
      ← append_assoc, ← hdrop]
    cases suspended with
    | false => exact ih hat' _
    | true =>
      obtain ⟨cursor, state'', hbytes, hrestore, hat''⟩ := restore_eq hRel hfresh hcount hat'
      simp [hbytes, ok_bind, hrestore, ih hat'']

end Steps

/-- However the merge is cut into steps and wherever it is suspended, it emits
the union of the runs, as far as the budgets go. -/
theorem suspended_merge_eq_union (hRel : Simulates Rel) (hfresh : FreshRuns Rel runs fresh)
    (hcount : runs.length < 2 ^ 32) (steps : List (Nat × Bool)) :
    runSteps fresh steps (.new fresh) [] =
        .ok ((unionOf runs).take (steps.map Prod.fst).sum) ∧
      runSteps fresh steps (.new fresh) [] =
        runSteps fresh [((steps.map Prod.fst).sum, false)] (.new fresh) [] ∧
      ((∀ step ∈ steps, step.1 ≠ 0) → (unionOf runs).length ≤ steps.length →
        runSteps fresh steps (.new fresh) [] = .ok (unionOf runs)) := by
  have hrun : ∀ steps, runSteps fresh steps (.new fresh) [] =
      .ok ((unionOf runs).take (steps.map Prod.fst).sum) := fun steps =>
    runSteps_eq hRel hfresh hcount steps (new_at hfresh) []
  refine ⟨hrun steps, by simp [hrun], fun hbudgets hlong => ?_⟩
  have hsum := length_le_sum_of_one_le (steps.map Prod.fst) fun n hn => by
    obtain ⟨step, hstep, rfl⟩ := mem_map.mp hn
    exact Nat.one_le_iff_ne_zero.mpr (hbudgets step hstep)
  rw [length_map] at hsum
  rw [hrun, take_of_length_le (hlong.trans hsum)]

end Merge

/-- Two runs that share a docid, suspended after each step. -/
theorem suspended_merge_eq_union_shared :
    runSteps [PlainReader.new [1, 3], PlainReader.new [1, 2]] [(1, true), (2, true)]
      (.new [PlainReader.new [1, 3], PlainReader.new [1, 2]]) [] =
        .ok ((unionOf [single [1, 3], single [1, 2]]).take 3) := by
  have hfresh : ∀ docs : List Nat, docs.length < 2 ^ 32 →
      (single docs).length < 2 ^ 32 ∧ (PlainReader.new docs).At (Cursor.start (single docs)) :=
    fun _ hlength => ⟨by simpa [single] using hlength, PlainReader.new_at hlength⟩
  exact (suspended_merge_eq_union PlainReader.simulates
    ⟨.cons (hfresh _ (by decide)) (.cons (hfresh _ (by decide)) .nil), by decide, by decide⟩
    (by decide) _).1

/-- With 2³² runs the count is stored as zero, and the cursor is refused. -/
theorem MergeCursor.fromBytes_of_count {c : MergeCursor} (hlen : c.positions.length = 2 ^ 32)
    (hfirst : c.positions[0]? = some 0) :
    fromBytes c.toBytes = .error "corrupt merge cursor: length mismatch" := by
  have hall := Holds.of_eq (rfl : c.toBytes = _)
  have hk := readWord_field "fixed-size header" hall.left (Nat.mod_lt _ (by decide))
  have htag := (hall.right.left.entry (fun p _ => length_leBytes 4 p) hfirst).head
  have hle := hall.right.left.le
  rw [Holds.length_flatMap_of_width fun p _ => length_leBytes 4 p, length_leBytes, hlen] at hle
  rw [hlen, Nat.mod_self] at hk
  rw [length_leBytes, Nat.zero_mul, Nat.zero_add, Nat.add_zero] at htag
  rw [fromBytes, if_neg (by omega), hk, ok_bind]
  simp only [Nat.zero_mul, Nat.add_zero, htag]
  rw [pure_eq_ok, ok_bind, if_pos (by omega)]
  rfl

/-- Fresh readers of any number of empty runs. -/
theorem freshRuns_replicate (n : Nat) : FreshRuns PlainReader.At (List.replicate n [])
    (List.replicate n (PlainReader.new [])) := by
  refine ⟨forall₂_iff_get.mpr ⟨by simp, fun i _ _ => ?_⟩, ?_, ?_⟩
  · simpa [single] using @PlainReader.new_at [] (by decide)
  · simp [mem_replicate, docsOf]
  · simp [mem_replicate, docsOf]

/-- With `2 ^ 32` runs the stored count is zero. -/
theorem runSteps_replicate {n : Nat} (hn : n = 2 ^ 32) :
    runSteps (List.replicate n (PlainReader.new [])) [(1, true)]
      (.new (List.replicate n (PlainReader.new []))) [] =
        .error "corrupt merge cursor: length mismatch" := by
  obtain ⟨count, state, bound, hstep, hat, -⟩ := mergeStep_eq PlainReader.simulates
    (freshRuns_replicate n) (new_at (freshRuns_replicate n)) 1 []
  have hpositions := positions_land PlainReader.simulates hat
  have hlen : state.cursor.positions.length = n :=
    hpositions.length_eq.trans length_replicate
  have hfirst : state.cursor.positions[0]? = some 0 := by
    obtain ⟨-, hget⟩ := forall₂_iff_get.mp hpositions
    have hzero := (hget 0 (by omega) (by simp; omega)).2.le_length
    rw [getElem?_eq_getElem (by omega)]
    simpa using hzero
  rw [runSteps, hstep, ok_bind]
  simp [MergeCursor.fromBytes_of_count (hlen.trans hn) hfirst, error_bind]

/-- A merge of 2³² empty runs cannot be taken up again. -/
theorem suspended_merge_loses_count :
    runSteps (List.replicate (2 ^ 32) (PlainReader.new [])) [(1, true)]
      (.new (List.replicate (2 ^ 32) (PlainReader.new []))) [] =
        .error "corrupt merge cursor: length mismatch" := runSteps_replicate rfl

end Gleaph.Postings
