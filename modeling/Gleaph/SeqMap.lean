import Gleaph.Panic

/-!
# Gleaph.SeqMap

An ordered map keyed by sequence numbers, as a queue.

The rows stand in increasing order of their number.  A new row takes the
number behind the last one, or zero in an empty map: numbers are not handed
out by a counter, so a number whose row has gone may be handed out again.
Rows leave by number, in any order.

* `mem_insert`, `mem_remove` — what the map holds after one change;
* `prepare_spec` — the numbers given to a batch of new rows: consecutive, and
  greater than every number in the map;
* `insertAll_rows` — a prepared batch stands at the end of the map.
-/

namespace Gleaph

open List hiding keys next

/-- Rows in increasing order of their sequence number. -/
structure SeqMap (α : Type) where
  rows : List (Nat × α)
  sorted : rows.Pairwise fun x y => x.1 < y.1
deriving DecidableEq

namespace SeqMap

variable {α β : Type}

variable {m : SeqMap α} {sequence : Nat} {rows : List (Nat × α)} {what : String}

def empty : SeqMap α := ⟨[], List.Pairwise.nil⟩

section

variable (m : SeqMap α) (sequence : Nat)

def get : Option α :=
  (m.rows.find? fun row => row.1 == sequence).map (·.2)

/-- Put a row at its number, in place of the one that stands there. -/
def insert (a : α) : SeqMap α where
  rows := m.rows.filter (fun row => row.1 < sequence) ++
    (sequence, a) :: m.rows.filter fun row => sequence < row.1
  sorted := by
    refine pairwise_append.mpr ⟨m.sorted.filter _, ?_, ?_⟩
    · exact pairwise_cons.mpr ⟨fun row hrow => by simpa using (mem_filter.mp hrow).2,
        m.sorted.filter _⟩
    intro row hrow row' hrow'
    have hlt : row.1 < sequence := by simpa using (mem_filter.mp hrow).2
    rcases mem_cons.mp hrow' with rfl | hrow'
    · exact hlt
    · exact hlt.trans (by simpa using (mem_filter.mp hrow').2)

def remove : SeqMap α where
  rows := m.rows.filter fun row => row.1 ≠ sequence
  sorted := m.sorted.filter _

end

def lastKey (m : SeqMap α) : Option Nat := m.rows.getLast?.map (·.1)

/-- The number of the next new row; `what` names the queue in the error. -/
def nextSeq (what : String) (m : SeqMap α) : Except String Nat :=
  match m.lastKey with
  | none => .ok 0
  | some sequence =>
    if sequence + 1 < 2 ^ 64 then .ok (sequence + 1) else .error (what ++ " sequence overflow")

/-- A new row under its number, if the number is one. -/
def numbered (what : String) (row : β × Nat) : Except String (Nat × β) :=
  if row.2 < 2 ^ 64 then .ok (row.2, row.1) else .error (what ++ " sequence overflow")

/-- Number new rows from the next sequence number on; the map is not changed. -/
def prepare (what : String) (m : SeqMap α) (entries : List β) : Except String (List (Nat × β)) :=
  if entries.isEmpty then .ok []
  else do
    let first ← m.nextSeq what
    (entries.zipIdx first).mapM (numbered what)

/-- Insert prepared rows; a number in use is a panic. -/
def insertAll (what : String) (m : SeqMap α) : List (Nat × α) → Except String (SeqMap α)
  | [] => .ok m
  | (sequence, a) :: rows =>
    if (m.get sequence).isSome then .error ("duplicate " ++ what ++ " sequence")
    else (m.insert sequence a).insertAll what rows

/-! ## Rows by number -/

/-- A number names one row. -/
theorem row_unique (ha : (sequence, a) ∈ m.rows) (hb : (sequence, b) ∈ m.rows) : a = b := by
  have hnodup : (m.rows.map (·.1)).Nodup :=
    (pairwise_map.mpr m.sorted).imp fun h => Nat.ne_of_lt h
  have := inj_on_of_nodup_map hnodup ha hb rfl
  exact congrArg Prod.snd this

theorem get_eq_some : m.get sequence = some a ↔ (sequence, a) ∈ m.rows := by
  constructor
  · intro h
    obtain ⟨row, hrow, rfl⟩ := Option.map_eq_some_iff.mp h
    have hkey : row.1 = sequence := by simpa using find?_some hrow
    have hmem := mem_of_find?_eq_some hrow
    rwa [← hkey]
  intro h
  cases hfind : m.rows.find? fun row => row.1 == sequence with
  | none => simpa using find?_eq_none.mp hfind _ h
  | some row =>
    have hkey : row.1 = sequence := by simpa using find?_some hfind
    have hmem : (sequence, row.2) ∈ m.rows := by
      rw [← hkey]
      exact mem_of_find?_eq_some hfind
    simp [get, hfind, row_unique hmem h]

theorem get_eq_none :
    m.get sequence = none ↔ ∀ a, (sequence, a) ∉ m.rows := by
  constructor
  · intro h a ha
    rw [get_eq_some.mpr ha] at h
    cases h
  intro h
  cases hget : m.get sequence with
  | none => rfl
  | some a => exact absurd (get_eq_some.mp hget) (h a)

@[simp] theorem rows_empty : (empty : SeqMap α).rows = [] := rfl

theorem mem_insert :
    (k, b) ∈ (m.insert sequence a).rows ↔
      k = sequence ∧ b = a ∨ k ≠ sequence ∧ (k, b) ∈ m.rows := by
  simp only [insert, mem_append, mem_cons, mem_filter, decide_eq_true_eq,
    Prod.mk.injEq]
  constructor
  · rintro (⟨hmem, hlt⟩ | ⟨rfl, rfl⟩ | ⟨hmem, hlt⟩)
    · exact .inr ⟨by omega, hmem⟩
    · exact .inl ⟨rfl, rfl⟩
    · exact .inr ⟨by omega, hmem⟩
  rintro (⟨rfl, rfl⟩ | ⟨hne, hmem⟩)
  · exact .inr (.inl ⟨rfl, rfl⟩)
  rcases Nat.lt_or_gt_of_ne hne with hlt | hlt
  · exact .inl ⟨hmem, hlt⟩
  · exact .inr (.inr ⟨hmem, hlt⟩)

theorem mem_remove : (k, b) ∈ (m.remove sequence).rows ↔ k ≠ sequence ∧ (k, b) ∈ m.rows := by
  simp [remove, and_comm]

theorem get_insert (m : SeqMap α) (sequence : Nat) (a : α) (k : Nat) :
    (m.insert sequence a).get k = if k = sequence then some a else m.get k := by
  refine Option.ext fun b => ?_
  rw [get_eq_some, mem_insert]
  by_cases hk : k = sequence
  · simp [hk, eq_comm]
  · simp [hk, get_eq_some]

theorem get_remove (m : SeqMap α) (sequence k : Nat) :
    (m.remove sequence).get k = if k = sequence then none else m.get k := by
  refine Option.ext fun b => ?_
  rw [get_eq_some, mem_remove]
  by_cases hk : k = sequence
  · simp [hk]
  · simp [hk, get_eq_some]

/-- No number is greater than the last one. -/
theorem lastKey_eq_none : m.lastKey = none ↔ m.rows = [] := by
  simp [lastKey]

theorem le_lastKey (h : m.lastKey = some last) (hrow : row ∈ m.rows) : row.1 ≤ last := by
  obtain ⟨lastRow, hlast, rfl⟩ := Option.map_eq_some_iff.mp h
  obtain ⟨front, hfront⟩ := getLast?_eq_some_iff.mp hlast
  have hsorted := m.sorted
  rw [hfront] at hrow hsorted
  rcases mem_append.mp hrow with hrow | hrow
  · exact ((pairwise_append.mp hsorted).2.2 row hrow lastRow (by simp)).le
  · rw [mem_singleton.mp hrow]

/-- A row put in place of another leaves the rows around it. -/
theorem insert_of_mem (h : (sequence, a) ∈ m.rows) (b : α) :
    ∃ front back, m.rows = front ++ (sequence, a) :: back ∧
      (m.insert sequence b).rows = front ++ (sequence, b) :: back := by
  obtain ⟨front, back, hrows⟩ := append_of_mem h
  have hsorted := m.sorted
  rw [hrows] at hsorted
  obtain ⟨-, hback, hfront⟩ := pairwise_append.mp hsorted
  have hback := (pairwise_cons.mp hback).1
  have hfront : ∀ row ∈ front, row.1 < sequence := fun row hrow =>
    hfront row hrow (sequence, a) (by simp)
  have hlt : m.rows.filter (fun row => row.1 < sequence) = front := by
    rw [hrows, filter_append, filter_eq_self.mpr (by simpa using hfront),
      filter_eq_nil_iff.mpr, append_nil]
    intro row hrow
    rcases mem_cons.mp hrow with rfl | hrow
    · simp
    · simpa using (hback row hrow).le
  have hgt : m.rows.filter (fun row => sequence < row.1) = back := by
    rw [hrows, filter_append, filter_cons_of_neg (by simp),
      filter_eq_nil_iff.mpr, nil_append, filter_eq_self.mpr (by simpa using hback)]
    intro row hrow
    simpa using (hfront row hrow).le
  exact ⟨front, back, hrows, by simp only [insert, hlt, hgt]⟩

/-! ## Lists in order of their numbers -/

/-- Two lists in increasing order with the same members are equal. -/
theorem eq_of_mem_iff (h : rows.Pairwise fun x y => x.1 < y.1)
    (h' : rows'.Pairwise fun x y => x.1 < y.1) (hmem : ∀ row, row ∈ rows ↔ row ∈ rows') :
    rows = rows' := by
  have hnodup : ∀ {rows : List (Nat × α)}, (rows.Pairwise fun x y => x.1 < y.1) → rows.Nodup :=
    fun h => h.imp fun hlt heq => absurd hlt (by simp [heq])
  refine ((perm_ext_iff_of_nodup (hnodup h) (hnodup h')).mpr hmem).eq_of_pairwise ?_ h h'
  intro x y _ _ hxy hyx
  omega

/-- Numbers in increasing order that fill an interval. -/
theorem eq_range' (h : keys.Pairwise (· < ·)) (hmem : ∀ k, k ∈ keys ↔ a ≤ k ∧ k < b) :
    keys = List.range' a (b - a) := by
  refine ((perm_ext_iff_of_nodup (h.imp Nat.ne_of_lt) nodup_range').mpr ?_).eq_of_pairwise
    ?_ h pairwise_lt_range'
  · intro k
    rw [hmem, mem_range'_1]
    omega
  · intro x y _ _ hxy hyx
    omega

/-- Rows that go together with all rows before them are a first part. -/
theorem filter_append_of_downward (hsorted : rows.Pairwise fun x y => x.1 < y.1)
    (hdown : ∀ x ∈ rows, ∀ y ∈ rows, x.1 < y.1 → p y → p x) :
    rows.filter p ++ rows.filter (fun row => !p row) = rows := by
  induction rows with
  | nil => rfl
  | cons row rows ih =>
    obtain ⟨hrow, hsorted⟩ := pairwise_cons.mp hsorted
    by_cases hp : p row
    · have := ih hsorted fun x hx y hy => hdown x (by simp [hx]) y (by simp [hy])
      simpa [hp] using this
    have hnone : ∀ y ∈ rows, p y = false := by
      intro y hy
      by_contra hy'
      exact hp (hdown row (by simp) y (by simp [hy]) (hrow y hy) (by simpa using hy'))
    have hnil : (row :: rows).filter p = [] := by
      simpa [filter_eq_nil_iff, hp] using hnone
    rw [hnil, nil_append]
    refine filter_eq_self.mpr fun y hy => ?_
    rcases mem_cons.mp hy with rfl | hy
    · simpa using hp
    · simp [hnone y hy]

/-! ## New rows -/

/-- The next number is greater than every number in the map. -/
theorem lt_nextSeq (h : m.nextSeq what = .ok next) (hrow : row ∈ m.rows) : row.1 < next := by
  unfold nextSeq at h
  cases hlast : m.lastKey with
  | none =>
    rw [lastKey_eq_none.mp hlast] at hrow
    cases hrow
  | some last =>
    have hle := le_lastKey hlast hrow
    simp only [hlast] at h
    split at h
    · have : last + 1 = next := by simpa using h
      omega
    · cases h

/-- What a batch of new rows is numbered with, when it gets numbers. -/
theorem prepare_eq_ok {entries : List β} {rows : List (Nat × β)}
    (h : m.prepare what entries = .ok rows) :
    entries = [] ∧ rows = [] ∨
      ∃ first, m.nextSeq what = .ok first ∧
        rows = (entries.zipIdx first).map fun x => (x.2, x.1) := by
  unfold prepare at h
  cases entries with
  | nil => exact .inl ⟨rfl, by simpa using h.symm⟩
  | cons entry entries =>
    obtain ⟨first, hfirst, hrows⟩ := bind_inv h
    refine .inr ⟨first, hfirst, mapM_ok_eq hrows fun x row hrow => ?_⟩
    unfold numbered at hrow
    split at hrow
    · exact (Except.ok.inj hrow).symm
    · cases hrow

/-- The entries keep their order, and their numbers are greater than every
number in the map and increase. -/
theorem prepare_spec {rows : List (Nat × β)} (h : m.prepare what entries = .ok rows) :
    rows.map (·.2) = entries ∧ rows.Pairwise (fun x y => x.1 < y.1) ∧
      ∀ row ∈ m.rows, ∀ new ∈ rows, row.1 < new.1 := by
  rcases prepare_eq_ok h with ⟨rfl, rfl⟩ | ⟨first, hfirst, rfl⟩
  · simp
  refine ⟨?_, ?_, ?_⟩
  · rw [map_map]
    exact zipIdx_map_fst first entries
  · refine pairwise_map.mpr ?_
    clear h hfirst
    induction entries generalizing first with
    | nil => simp
    | cons entry entries ih =>
      rw [zipIdx_cons]
      refine pairwise_cons.mpr ⟨fun x hx => ?_, ih (first + 1)⟩
      have := (mem_zipIdx hx).1
      simp only at this ⊢
      omega
  · intro row hrow new hnew
    obtain ⟨x, hx, rfl⟩ := mem_map.mp hnew
    exact (lt_nextSeq hfirst hrow).trans_le (mem_zipIdx hx).1

/-- The numbers of a batch start with the next one of the map. -/
theorem nextSeq_le_of_prepare {rows : List (Nat × β)} (h : m.prepare what entries = .ok rows)
    (hrow : row ∈ rows) : ∃ next, m.nextSeq what = .ok next ∧ next ≤ row.1 := by
  rcases prepare_eq_ok h with ⟨-, rfl⟩ | ⟨first, hfirst, rfl⟩
  · cases hrow
  · obtain ⟨x, hx, rfl⟩ := mem_map.mp hrow
    exact ⟨first, hfirst, (mem_zipIdx hx).1⟩

/-- A row behind every other one is put at the end. -/
theorem insert_rows_of_lt (h : ∀ row ∈ m.rows, row.1 < sequence) :
    (m.insert sequence a).rows = m.rows ++ [(sequence, a)] := by
  have hfront : m.rows.filter (fun row => row.1 < sequence) = m.rows :=
    filter_eq_self.mpr fun row hrow => by simpa using h row hrow
  have hback : m.rows.filter (fun row => sequence < row.1) = [] :=
    filter_eq_nil_iff.mpr fun row hrow => by simpa using (h row hrow).le
  simp only [insert, hfront, hback]

/-- Rows behind every row of the map, in increasing order, are put at its end. -/
theorem insertAll_rows (hsorted : rows.Pairwise fun x y => x.1 < y.1)
    (hlt : ∀ row ∈ m.rows, ∀ new ∈ rows, row.1 < new.1) :
    ∃ m' : SeqMap α, m.insertAll what rows = .ok m' ∧ m'.rows = m.rows ++ rows := by
  induction rows generalizing m with
  | nil => exact ⟨m, rfl, by simp⟩
  | cons new rows ih =>
    obtain ⟨sequence, a⟩ := new
    obtain ⟨hnew, hsorted⟩ := pairwise_cons.mp hsorted
    have hbehind : ∀ row ∈ m.rows, row.1 < sequence := fun row hrow =>
      hlt row hrow (sequence, a) (by simp)
    have hfree : m.get sequence = none := get_eq_none.mpr fun b hb =>
      absurd (hbehind _ hb) (Nat.lt_irrefl _)
    have hrows := insert_rows_of_lt (a := a) hbehind
    obtain ⟨m', hm', hrows'⟩ := ih (m := m.insert sequence a) hsorted (by
      intro row hrow new hmem
      rw [hrows] at hrow
      rcases mem_append.mp hrow with hrow | hrow
      · exact hlt row hrow new (by simp [hmem])
      · rw [mem_singleton.mp hrow]
        exact hnew new hmem)
    refine ⟨m', by simp [insertAll, hfree, hm'], ?_⟩
    rw [hrows', hrows]
    simp

end SeqMap

end Gleaph
