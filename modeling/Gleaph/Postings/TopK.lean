import Gleaph.Ranking
import Gleaph.Postings.Reader

/-!
# Gleaph.Postings.TopK

The document-at-a-time top-k driver with block-max skipping
(`crates/ic-stable-text-postings/src/topk.rs`), over any reader.

The source keeps `order` (indices into `lists`) and the cached `frontiers` in
parallel and moves them together; here a `ListCursor` is a query list with its
cached frontier.  The bounded heap, whose top is the worst kept hit, is a list
in rank order whose last element is the worst.  `u32` additions wrap.

The main loop takes fuel and answers `none` when it runs out; how much is
enough is shown in `Gleaph.Postings.TopK.Sound`.
-/

namespace Gleaph.Postings

/-! ## Hits -/

/-- A scored document. -/
structure Hit where
  score : Nat
  docid : Nat
  deriving DecidableEq, Repr

namespace Hit

/-- Better is greater: higher score, then lower docid. -/
def cmp (a b : Hit) : Ordering := (compare a.score b.score).then (compare b.docid a.docid)

/-- Rank order: score descending, docid ascending. -/
def rank (h : Hit) : Lex (ℕᵒᵈ × ℕ) := toLex (OrderDual.toDual h.score, h.docid)

/-- Hits of the same rank are the same hit. -/
theorem rank_injective : Function.Injective rank := by
  intro a b h
  cases a
  cases b
  simpa [rank] using h

instance : LinearOrder Hit := LinearOrder.lift' rank rank_injective

/-- A better hit has the higher score, or the same score and the smaller docid.
-/
theorem lt_iff (a b : Hit) :
    a < b ↔ b.score < a.score ∨ a.score = b.score ∧ a.docid < b.docid := by
  show rank a < rank b ↔ _
  rw [rank, rank, Prod.Lex.toLex_lt_toLex]
  simp

/-- The same for the order with equality. -/
theorem le_iff (a b : Hit) :
    a ≤ b ↔ b.score < a.score ∨ a.score = b.score ∧ a.docid ≤ b.docid := by
  show rank a ≤ rank b ↔ _
  rw [rank, rank, Prod.Lex.toLex_le_toLex]
  simp

/-- The source's order is rank order turned around. -/
theorem cmp_eq_lt (a b : Hit) : cmp a b = .lt ↔ b < a := by
  rw [cmp, Ordering.then_eq_lt, Nat.compare_eq_lt, Nat.compare_eq_lt, Nat.compare_eq_eq, lt_iff]
  omega

end Hit

/-! ## Query lists -/

/-- Contribution part by stored term frequency (`[u32; 256]`). -/
abbrev TfPartTable := Fin 256 → Nat

/-- The table entry of a frequency, read at 255 from there on. -/
def TfPartTable.part (table : TfPartTable) (tf : Nat) : Nat := table ⟨min tf 255, by omega⟩

structure QueryList (R : Type) where
  reader : R
  weight : Nat
  blockBounds : List Nat
  tfParts : TfPartTable

/-- A query list with its cached frontier. -/
structure ListCursor (R : Type) where
  frontier : Option Nat
  list : QueryList R

section Driver

variable {R : Type} [PostingReader R]

namespace QueryList

variable (q : QueryList R)

/-- The list with its next docid cached. -/
def frontier : Except String (ListCursor R) := do
  let (docid, reader) ← PostingReader.peek q.reader
  return ⟨docid, { q with reader }⟩

/-- Block-max upper bound covering the docid. -/
def boundAt (docid : Nat) : Except String Nat :=
  expect "index out of bounds" q.blockBounds[docid / logicalBlockSize]?

/-- Consume the frontier posting: its contribution, and the refreshed cursor. -/
def takeStep : Except String (Nat × ListCursor R) := do
  let (posting, reader) ← PostingReader.nextStep q.reader
  let (_, tf) ← expect "frontier live at call" posting
  let (next, reader) ← PostingReader.peek reader
  return ((q.weight + q.tfParts.part tf) % 2 ^ 32, ⟨next, { q with reader }⟩)

def skipTo (target : Nat) : Except String (QueryList R) := do
  let (_, reader) ← PostingReader.advance q.reader target
  return { q with reader }

end QueryList

/-- First docid of the next logical block. -/
def nextBlockStart (docid : Nat) : Nat :=
  (docid / logicalBlockSize + 1) * logicalBlockSize % 2 ^ 32

/-! ## Frontier order -/

/-- `Option<u32>` order: exhausted cursors first. -/
def frontierKey : Option Nat → Nat
  | none => 0
  | some docid => docid + 1

/-- One insertion: behind every cursor that is not above. -/
def insertByFrontier (c : ListCursor R) : List (ListCursor R) → List (ListCursor R)
  | [] => [c]
  | d :: ds =>
    if frontierKey c.frontier < frontierKey d.frontier then c :: d :: ds
    else d :: insertByFrontier c ds

/-- Stable insertion sort over the cached frontiers. -/
def sortByCachedFrontier (cursors : List (ListCursor R)) : List (ListCursor R) :=
  cursors.foldl (fun sorted c => insertByFrontier c sorted) []

/-! ## One iteration -/

/-- Whether the frontier-block maxima can add up to the required score; the
sum saturates and stops as soon as it does. -/
def canQualify (required : Nat) : Nat → List (ListCursor R) → Except String Bool
  | _, [] => .ok false
  | total, c :: cs => do
    let frontier ← expect "compacted" c.frontier
    let bound ← c.list.boundAt frontier
    let total := min (total + bound) (2 ^ 32 - 1)
    if required ≤ total then return true else canQualify required total cs

/-- The earliest next-block start over all cursors. -/
def earliestBlockStart (cursors : List (ListCursor R)) : Except String Nat := do
  let starts ← cursors.mapM fun c => nextBlockStart <$> expect "compacted" c.frontier
  expect "non-empty" starts.min?

/-- Every cursor advanced to the target, its frontier refreshed. -/
def skipAll (target : Nat) : List (ListCursor R) → Except String (List (ListCursor R))
  | [] => .ok []
  | c :: cs => do
    let list ← c.list.skipTo target
    let c ← list.frontier
    let cs ← skipAll target cs
    return c :: cs

/-- The contiguous run of cursors on the candidate: their summed
contributions, and the cursors moved past it. -/
def takeMatched (candidate : Nat) :
    Nat → List (ListCursor R) → Except String (Nat × List (ListCursor R))
  | score, [] => .ok (score, [])
  | score, c :: cs =>
    if c.frontier = some candidate then do
      let (contribution, c) ← c.list.takeStep
      let (score, cs) ← takeMatched candidate ((score + contribution) % 2 ^ 32) cs
      return (score, c :: cs)
    else .ok (score, c :: cs)

/-- Bounded-heap admission: push while there is room, else replace the worst
kept hit if the newcomer beats it. -/
def admitHit (k : Nat) (heap : List Hit) (hit : Hit) : Except String (List Hit) :=
  if heap.length < k then .ok (heap.orderedInsert (· ≤ ·) hit)
  else do
    let worst ← expect "full" heap.getLast?
    if Hit.cmp worst hit = .lt then return heap.dropLast.orderedInsert (· ≤ ·) hit
    else return heap

structure TopkState (R : Type) where
  cursors : List (ListCursor R)
  heap : List Hit

/-- Whether a document in the frontier blocks can still enter the heap. -/
def mayQualify (k : Nat) (heap : List Hit) (cursors : List (ListCursor R)) : Except String Bool :=
  if heap.length = k then do
    let worst ← expect "full" heap.getLast?
    canQualify ((worst.score + 1) % 2 ^ 32) 0 cursors
  else .ok true

/-- One iteration of the main loop; `none` when every list is exhausted. -/
def topkStep (k : Nat) (s : TopkState R) : Except String (Option (TopkState R)) :=
  -- compaction: exhausted cursors sort first
  match s.cursors.dropWhile fun c => c.frontier.isNone with
  | [] => .ok none
  | c :: cs => do
    if ← mayQualify k s.heap (c :: cs) then
      let candidate ← expect "live" c.frontier
      let (score, cursors) ← takeMatched candidate 0 (c :: cs)
      let heap ← admitHit k s.heap ⟨score, candidate⟩
      return some ⟨sortByCachedFrontier cursors, heap⟩
    else
      let jump ← earliestBlockStart (c :: cs)
      let cursors ← skipAll jump (c :: cs)
      return some ⟨sortByCachedFrontier cursors, s.heap⟩

/-! ## The driver -/

def topkLoop (k : Nat) : Nat → TopkState R → Except String (Option (List Hit))
  | 0, _ => .ok none
  | fuel + 1, s => do
    match ← topkStep k s with
    | none => return some s.heap
    | some s => topkLoop k fuel s

def sortHits (hits : List Hit) : List Hit :=
  hits.mergeSort fun a b => ((compare b.score a.score).then (compare a.docid b.docid)).isLE

/-- The `k` best documents of the disjunction, or `none` out of fuel. -/
def topkDisjunctive (fuel : Nat) (lists : List (QueryList R)) (k : Nat) :
    Except String (Option (List Hit)) := do
  let cursors ← lists.mapM QueryList.frontier
  let heap ← topkLoop k fuel ⟨sortByCachedFrontier cursors, []⟩
  return heap.map sortHits

end Driver

/-! ## Brute-force evaluation -/

/-- A query list as data. -/
structure Query where
  postings : List Posting
  weight : Nat
  blockBounds : List Nat
  tfParts : TfPartTable

/-- What a posting adds to its document's score. -/
def Query.contribution (q : Query) (tf : Nat) : Nat := q.weight + q.tfParts.part tf

/-- What the list adds to a document's score. -/
def Query.scoreAt (q : Query) (docid : Nat) : Nat :=
  ((q.postings.filter fun p => p.1 = docid).map fun p => q.contribution p.2).sum

variable (qs : List Query)

/-- The documents of any list. -/
def docids : Finset Nat := (qs.flatMap fun q => q.postings.map Prod.fst).toFinset

/-- A document's score: every list's contribution, summed. -/
def score (docid : Nat) : Nat := (qs.map fun q => q.scoreAt docid).sum

/-- Every document of a set with its score. -/
def hitsOf (ds : Finset Nat) : Multiset Hit :=
  ds.val.map fun d => ⟨score qs d, d⟩

/-- The `k` best documents, by score descending and docid ascending. -/
def bruteForce (k : Nat) : List Hit := Ranking.topK k (hitsOf qs (docids qs))

end Gleaph.Postings
