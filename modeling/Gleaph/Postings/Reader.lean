import Gleaph.Panic

/-!
# Gleaph.Postings.Reader

Cursors over sorted posting lists
(`crates/ic-stable-text-postings/src/enc/mod.rs`).

`PostingReader` is the source's trait in state-passing form: each method
returns its answer and the reader it leaves behind, and a panic is an `Except`
error carrying its message.

`Cursor` is what every reader is a representation of: the number of postings
consumed and the postings still to come, each a docid with its term
frequency.  `Simulates Rel` says that `Rel` ties a reader to such a cursor and
that every method keeps the tie and answers as the cursor does; from it, any
finite sequence of calls is answered as on the cursor (`runCalls_eq`).
-/

namespace Gleaph.Postings

/-- Postings per logical block (`LOGICAL_BLOCK_SIZE`). -/
def logicalBlockSize : Nat := 128

/-! ## The reader interface -/

/-- `trait PostingReader`, with the trait's default `tf` and `next_step`. -/
class PostingReader (R : Type) where
  len : R → Nat
  pos : R → Nat
  peek : R → Except String (Option Nat × R)
  next : R → Except String (Option Nat × R)
  advance : R → Nat → Except String (Option Nat × R)
  tf : R → Except String (Option Nat × R) := fun r => do
    let (docid, r) ← peek r
    return (docid.map fun _ => 1, r)
  nextStep : R → Except String (Option (Nat × Nat) × R) := fun r => do
    let (docid, r) ← next r
    match docid with
    | none => return (none, r)
    | some docid =>
      let (freq, r) ← tf r
      return (some (docid, freq.getD 1), r)

/-- One method call. -/
inductive Call where
  | peek
  | next
  | advance (target : Nat)
  | pos
  | tf
  | nextStep
  deriving DecidableEq, Repr

/-- What a call returns. -/
inductive Answer where
  | docid (docid : Option Nat)
  | index (pos : Nat)
  | freq (tf : Option Nat)
  | posting (step : Option (Nat × Nat))
  deriving DecidableEq, Repr

section Calls

variable {R : Type} [PostingReader R]

def call (r : R) : Call → Except String (Answer × R)
  | .peek => do
    let (d, r) ← PostingReader.peek r
    return (.docid d, r)
  | .next => do
    let (d, r) ← PostingReader.next r
    return (.docid d, r)
  | .advance target => do
    let (d, r) ← PostingReader.advance r target
    return (.docid d, r)
  | .pos => .ok (.index (PostingReader.pos r), r)
  | .tf => do
    let (f, r) ← PostingReader.tf r
    return (.freq f, r)
  | .nextStep => do
    let (p, r) ← PostingReader.nextStep r
    return (.posting p, r)

/-- The answers to a sequence of calls, up to the first panic. -/
def runCalls : List Call → R → Except String (List Answer)
  | [], _ => .ok []
  | c :: cs, r => do
    let (a, r) ← call r c
    let rest ← runCalls cs r
    return a :: rest

end Calls

/-! ## The abstract cursor -/

/-- A docid and the term frequency stored with it. -/
abbrev Posting := Nat × Nat

/-- Postings consumed so far, and the postings to come. -/
structure Cursor where
  pos : Nat
  rest : List Posting
  deriving DecidableEq, Repr

namespace Cursor

/-- At the start of a list. -/
def start (postings : List Posting) : Cursor := ⟨0, postings⟩

def peek (c : Cursor) : Option Nat := c.rest.head?.map Prod.fst

def tf (c : Cursor) : Option Nat := c.rest.head?.map Prod.snd

/-- Past the next posting. -/
def tail (c : Cursor) : Cursor :=
  match c.rest with
  | [] => c
  | _ :: rest => ⟨c.pos + 1, rest⟩

/-- Past every posting below the target. -/
def skipTo (c : Cursor) (target : Nat) : Cursor :=
  ⟨c.pos + (c.rest.takeWhile fun p => p.1 < target).length,
    c.rest.dropWhile fun p => p.1 < target⟩

/-- The cursor's answer to a call, and the cursor behind it. -/
def call (c : Cursor) : Call → Answer × Cursor
  | .peek => (.docid c.peek, c)
  | .next => (.docid c.peek, c.tail)
  | .advance target => (.docid (c.skipTo target).peek, c.skipTo target)
  | .pos => (.index c.pos, c)
  | .tf => (.freq c.tf, c)
  | .nextStep => (.posting c.rest.head?, c.tail)

def runCalls : List Call → Cursor → List Answer
  | [], _ => []
  | k :: ks, c => (c.call k).1 :: runCalls ks (c.call k).2

end Cursor

/-! ## Simulation -/

/-- `Rel` ties readers to cursors, and every method keeps the tie while
answering as the cursor does. -/
structure Simulates {R : Type} [PostingReader R] (Rel : R → Cursor → Prop) : Prop where
  len : ∀ {r c}, Rel r c → PostingReader.len r = c.pos + c.rest.length
  pos : ∀ {r c}, Rel r c → PostingReader.pos r = c.pos
  peek : ∀ {r c}, Rel r c → ∃ r', PostingReader.peek r = .ok (c.peek, r') ∧ Rel r' c
  next : ∀ {r c}, Rel r c → ∃ r', PostingReader.next r = .ok (c.peek, r') ∧ Rel r' c.tail
  advance : ∀ {r c} target, Rel r c →
    ∃ r', PostingReader.advance r target = .ok ((c.skipTo target).peek, r') ∧
      Rel r' (c.skipTo target)
  tf : ∀ {r c}, Rel r c → ∃ r', PostingReader.tf r = .ok (c.tf, r') ∧ Rel r' c
  nextStep : ∀ {r c}, Rel r c →
    ∃ r', PostingReader.nextStep r = .ok (c.rest.head?, r') ∧ Rel r' c.tail

section Simulation

variable {R : Type} [PostingReader R] {Rel : R → Cursor → Prop}

theorem Simulates.call_eq (h : Simulates Rel) (hr : Rel r c) (k : Call) :
    ∃ r', call r k = .ok ((c.call k).1, r') ∧ Rel r' (c.call k).2 := by
  cases k with
  | peek =>
    obtain ⟨r', hr', hrel⟩ := h.peek hr
    exact ⟨r', by simp [call, hr', Cursor.call], hrel⟩
  | next =>
    obtain ⟨r', hr', hrel⟩ := h.next hr
    exact ⟨r', by simp [call, hr', Cursor.call], hrel⟩
  | advance target =>
    obtain ⟨r', hr', hrel⟩ := h.advance target hr
    exact ⟨r', by simp [call, hr', Cursor.call], hrel⟩
  | pos => exact ⟨r, by simp [call, h.pos hr, Cursor.call], hr⟩
  | tf =>
    obtain ⟨r', hr', hrel⟩ := h.tf hr
    exact ⟨r', by simp [call, hr', Cursor.call], hrel⟩
  | nextStep =>
    obtain ⟨r', hr', hrel⟩ := h.nextStep hr
    exact ⟨r', by simp [call, hr', Cursor.call], hrel⟩

/-- Ties may be gathered into one. -/
theorem Simulates.exists {ι : Type} {Rel : ι → R → Cursor → Prop} (h : ∀ i, Simulates (Rel i)) :
    Simulates fun r c => ∃ i, Rel i r c where
  len hr := hr.elim fun i hr => (h i).len hr
  pos hr := hr.elim fun i hr => (h i).pos hr
  peek hr := hr.elim fun i hr => ((h i).peek hr).imp fun _ h => ⟨h.1, i, h.2⟩
  next hr := hr.elim fun i hr => ((h i).next hr).imp fun _ h => ⟨h.1, i, h.2⟩
  advance target hr := hr.elim fun i hr => ((h i).advance target hr).imp fun _ h => ⟨h.1, i, h.2⟩
  tf hr := hr.elim fun i hr => ((h i).tf hr).imp fun _ h => ⟨h.1, i, h.2⟩
  nextStep hr := hr.elim fun i hr => ((h i).nextStep hr).imp fun _ h => ⟨h.1, i, h.2⟩

/-- A simulating reader answers every sequence of calls as its cursor does. -/
theorem Simulates.runCalls_eq (h : Simulates Rel) (ks : List Call) (hr : Rel r c) :
    runCalls ks r = .ok (c.runCalls ks) := by
  induction ks generalizing r c with
  | nil => rfl
  | cons k ks ih =>
    obtain ⟨r', hr', hrel⟩ := h.call_eq hr k
    simp [runCalls, Cursor.runCalls, hr', ih hrel]

end Simulation

/-! ## Readers that keep an index -/

/-- The cursor before the posting at an index. -/
def Cursor.seek (postings : List Posting) (pos : Nat) : Cursor := ⟨pos, postings.drop pos⟩

/-- Where advancing from `pos` ends: at the first docid from there on that is
not below the target, or at the end. -/
structure Lands (docs : List Nat) (target pos j : Nat) : Prop where
  le : pos ≤ j
  le_length : j ≤ docs.length
  below : ∀ i d, pos ≤ i → i < j → docs[i]? = some d → d < target
  reached : ∀ d, docs[j]? = some d → target ≤ d

/-- Staying put, where nothing is below the target. -/
theorem Lands.refl (hpos : pos ≤ docs.length) (h : ∀ d, docs[pos]? = some d → target ≤ d) :
    Lands docs target pos pos :=
  ⟨Nat.le_refl pos, hpos, fun _ _ hi hj => absurd hi (Nat.not_le.mpr hj), h⟩

/-- A stretch of docids below the target may be passed over first. -/
theorem Lands.of_le (hle : pos ≤ mid)
    (hbelow : ∀ i d, pos ≤ i → i < mid → docs[i]? = some d → d < target)
    (h : Lands docs target mid j) : Lands docs target pos j :=
  { h with
    le := Nat.le_trans hle h.le
    below i d hi hj hd := by
      by_cases hmid : i < mid
      · exact hbelow i d hi hmid hd
      · exact h.below i d (Nat.not_lt.mp hmid) hj hd }

/-- A docid below the target is passed over. -/
theorem Lands.of_succ (hd : docs[pos]? = some d) (hlow : ¬ target ≤ d)
    (h : Lands docs target (pos + 1) j) : Lands docs target pos j := by
  refine Lands.of_le (Nat.le_succ pos) (fun i d' hi hi' hd' => ?_) h
  obtain rfl : i = pos := by omega
  rw [hd, Option.some.injEq] at hd'
  omega

/-- The docid at an index may already reach the target, or there may be none. -/
theorem Lands.here_or_below (hpos : pos ≤ docs.length) (target : Nat) :
    (docs[pos]? = none ∧ docs.length ≤ pos ∧ Lands docs target pos pos) ∨
      ∃ d, docs[pos]? = some d ∧ pos < docs.length ∧
        (target ≤ d ∧ Lands docs target pos pos ∨ ¬ target ≤ d) := by
  cases hd : docs[pos]? with
  | none => exact .inl ⟨rfl, List.getElem?_eq_none_iff.mp hd, Lands.refl hpos (by simp [hd])⟩
  | some d =>
    refine .inr ⟨d, rfl, (List.getElem?_eq_some_iff.mp hd).1, ?_⟩
    by_cases hreach : target ≤ d
    · exact .inl ⟨hreach, Lands.refl hpos (by simpa [hd] using hreach)⟩
    · exact .inr hreach

theorem Lands.skipTo (h : Lands (postings.map Prod.fst) target pos j) :
    (Cursor.seek postings pos).skipTo target = Cursor.seek postings j := by
  have hj : j ≤ postings.length := by simpa using h.le_length
  have hsplit : postings.drop pos = (postings.drop pos).take (j - pos) ++ postings.drop j := by
    conv_lhs => rw [← List.take_append_drop (j - pos) (postings.drop pos)]
    rw [List.drop_drop, Nat.add_sub_cancel' h.le]
  have hlen : ((postings.drop pos).take (j - pos)).length = j - pos := by
    rw [List.length_take, List.length_drop]
    omega
  have hbelow : ∀ p ∈ (postings.drop pos).take (j - pos), decide (p.1 < target) = true := by
    intro p hp
    obtain ⟨i, hi, hget⟩ := List.mem_take_iff_getElem.mp hp
    simp only [List.length_drop, Nat.lt_min, List.getElem_drop] at hi hget
    have hd : (postings.map Prod.fst)[pos + i]? = some p.1 := by
      rw [List.getElem?_map, List.getElem?_eq_getElem (by omega), hget]
      rfl
    simpa using h.below (pos + i) p.1 (by omega) (by omega) hd
  have hreached : (postings.drop j).takeWhile (fun p => decide (p.1 < target)) = [] ∧
      (postings.drop j).dropWhile (fun p => decide (p.1 < target)) = postings.drop j := by
    cases hd : postings.drop j with
    | nil => simp
    | cons p ps =>
      have hget : postings[j]? = some p := by rw [← List.head?_drop, hd, List.head?_cons]
      have hle := h.reached p.1 (by rw [List.getElem?_map, hget]; rfl)
      simp [Nat.not_lt.mpr hle]
  simp only [Cursor.skipTo, Cursor.seek]
  rw [hsplit, List.takeWhile_append_of_pos hbelow, List.dropWhile_append_of_pos hbelow,
    hreached.1, hreached.2, List.append_nil, hlen, Nat.add_sub_cancel' h.le]

open PostingReader (pos)

/-- Every method keeps `Inv` and answers from the posting at the reader's
index. -/
structure Tracks {R : Type} [PostingReader R] (postings : List Posting) (Inv : R → Prop) :
    Prop where
  len : ∀ {r}, Inv r → PostingReader.len r = postings.length
  pos_le : ∀ {r}, Inv r → pos r ≤ postings.length
  peek : ∀ {r}, Inv r → ∃ r',
    PostingReader.peek r = .ok (postings[pos r]?.map Prod.fst, r') ∧ Inv r' ∧
      pos r' = pos r
  next : ∀ {r}, Inv r → ∃ r',
    PostingReader.next r = .ok (postings[pos r]?.map Prod.fst, r') ∧ Inv r' ∧
      pos r' = min (pos r + 1) postings.length
  advance : ∀ {r} target, Inv r → ∃ r',
    PostingReader.advance r target = .ok (postings[pos r']?.map Prod.fst, r') ∧
      Inv r' ∧ Lands (postings.map Prod.fst) target (pos r) (pos r')
  tf : ∀ {r}, Inv r → ∃ r',
    PostingReader.tf r = .ok (postings[pos r]?.map Prod.snd, r') ∧ Inv r' ∧
      pos r' = pos r
  nextStep : ∀ {r}, Inv r → ∃ r',
    PostingReader.nextStep r = .ok (postings[pos r]?, r') ∧ Inv r' ∧
      pos r' = min (pos r + 1) postings.length

theorem Cursor.seek_tail {pos : Nat} (hpos : pos ≤ postings.length) :
    (Cursor.seek postings pos).tail = Cursor.seek postings (min (pos + 1) postings.length) := by
  simp only [Cursor.tail, Cursor.seek]
  by_cases hlt : pos < postings.length
  · rw [List.drop_eq_getElem_cons hlt, Nat.min_eq_left hlt]
  · have heq : pos = postings.length := by omega
    rw [heq, Nat.min_eq_right (Nat.le_succ _), List.drop_length]

/-- A reader that tracks an index simulates the cursor at that index. -/
theorem Tracks.simulates {R : Type} [PostingReader R] {Inv : R → Prop} (h : Tracks postings Inv) :
    Simulates fun r c => Inv r ∧ c = Cursor.seek postings (pos r) where
  len hr := by
    obtain ⟨hinv, rfl⟩ := hr
    have := h.pos_le hinv
    simp only [h.len hinv, Cursor.seek, List.length_drop]
    omega
  pos hr := by rw [hr.2]; rfl
  peek hr := by
    obtain ⟨hinv, rfl⟩ := hr
    obtain ⟨r', hr', hinv', hpos⟩ := h.peek hinv
    exact ⟨r', by simp [hr', Cursor.peek, Cursor.seek], hinv', by rw [hpos]⟩
  next hr := by
    obtain ⟨hinv, rfl⟩ := hr
    obtain ⟨r', hr', hinv', hpos⟩ := h.next hinv
    exact ⟨r', by simp [hr', Cursor.peek, Cursor.seek], hinv',
      by rw [hpos, Cursor.seek_tail (h.pos_le hinv)]⟩
  advance target hr := by
    obtain ⟨hinv, rfl⟩ := hr
    obtain ⟨r', hr', hinv', hlands⟩ := h.advance target hinv
    rw [hlands.skipTo]
    exact ⟨r', by simp [hr', Cursor.peek, Cursor.seek], hinv', rfl⟩
  tf hr := by
    obtain ⟨hinv, rfl⟩ := hr
    obtain ⟨r', hr', hinv', hpos⟩ := h.tf hinv
    exact ⟨r', by simp [hr', Cursor.tf, Cursor.seek], hinv', by rw [hpos]⟩
  nextStep hr := by
    obtain ⟨hinv, rfl⟩ := hr
    obtain ⟨r', hr', hinv', hpos⟩ := h.nextStep hinv
    exact ⟨r', by simp [hr', Cursor.seek], hinv', by rw [hpos, Cursor.seek_tail (h.pos_le hinv)]⟩

/-- The docid methods of a reader over a list of docids. -/
structure DocTracks {R : Type} [PostingReader R] (docs : List Nat) (Inv : R → Prop) : Prop where
  len : ∀ {r}, Inv r → PostingReader.len r = docs.length
  pos_le : ∀ {r}, Inv r → pos r ≤ docs.length
  peek : ∀ {r}, Inv r → ∃ r',
    PostingReader.peek r = .ok (docs[pos r]?, r') ∧ Inv r' ∧
      pos r' = pos r
  next : ∀ {r}, Inv r → ∃ r',
    PostingReader.next r = .ok (docs[pos r]?, r') ∧ Inv r' ∧
      pos r' = min (pos r + 1) docs.length
  advance : ∀ {r} target, Inv r → ∃ r',
    PostingReader.advance r target = .ok (docs[pos r']?, r') ∧ Inv r' ∧
      Lands docs target (pos r) (pos r')

/-- Postings of a list that stores no frequencies. -/
def single (docs : List Nat) : List Posting := docs.map fun d => (d, 1)

/-- A reader that keeps the trait's `tf` and `next_step` reports frequency
one everywhere. -/
theorem DocTracks.tracks {R : Type} [PostingReader R] {Inv : R → Prop} (h : DocTracks docs Inv)
    (htf : ∀ r : R, PostingReader.tf r = do
      let (docid, r) ← PostingReader.peek r
      return (docid.map fun _ => 1, r)) (hstep : ∀ r : R, PostingReader.nextStep r = do
      let (docid, r) ← PostingReader.next r
      match docid with
      | none => return (none, r)
      | some docid =>
        let (freq, r) ← PostingReader.tf r
        return (some (docid, freq.getD 1), r)) : Tracks (single docs) Inv := by
  have hfst : ∀ i : Nat, (single docs)[i]?.map Prod.fst = docs[i]? := by
    simp [single, Function.comp_def]
  have hlen : (single docs).length = docs.length := List.length_map _
  have hdocs : (single docs).map Prod.fst = docs := by simp [single, Function.comp_def]
  have hone : ∀ o : Option Nat, (o.map fun _ => 1).getD 1 = 1 := by
    intro o
    cases o <;> rfl
  refine ⟨?_, ?_, ?_, ?_, ?_, ?_, ?_⟩
  · intro r hr
    simp [h.len hr, single]
  · intro r hr
    simpa [single] using h.pos_le hr
  · intro r hr
    simpa only [hfst] using h.peek hr
  · intro r hr
    simpa only [hfst, hlen] using h.next hr
  · intro r target hr
    simpa only [hfst, hdocs] using h.advance target hr
  · intro r hr
    obtain ⟨r', hr', hinv, hpos⟩ := h.peek hr
    exact ⟨r', by simp [htf, hr', single, Function.comp_def], hinv, hpos⟩
  intro r hr
  obtain ⟨r', hr', hinv, hpos⟩ := h.next hr
  cases hd : docs[pos r]? with
  | none =>
    refine ⟨r', by simp [hstep, hr', hd, single], hinv, by simpa [single] using hpos⟩
  | some d =>
    obtain ⟨r'', hr'', hinv', hpos'⟩ := h.peek hinv
    refine ⟨r'', by simp [hstep, hr', hd, htf, hr'', hone, single], hinv', ?_⟩
    rw [hpos', hpos, single, List.length_map]

/-! ## The plain reader -/

/-- Reader over an unencoded strictly increasing slice. -/
structure PlainReader where
  docs : List Nat
  pos : Nat

namespace PlainReader

def new (docs : List Nat) : PlainReader := ⟨docs, 0⟩

def peek (r : PlainReader) : Option Nat := r.docs[r.pos]?

/-- Past one posting; the index is a `u32`. -/
def step (r : PlainReader) : PlainReader := { r with pos := (r.pos + 1) % 2 ^ 32 }

def next (r : PlainReader) : Option Nat × PlainReader :=
  match r.peek with
  | some docid => (some docid, r.step)
  | none => (none, r)

/-- The `while let` loop of `advance`; the fuel is the number of postings
left, which the loop cannot outrun. -/
def advanceLoop (target : Nat) : Nat → PlainReader → Option Nat × PlainReader
  | 0, r => (none, r)
  | fuel + 1, r =>
    match r.peek with
    | some docid => if target ≤ docid then (some docid, r) else advanceLoop target fuel r.step
    | none => (none, r)

instance : PostingReader PlainReader where
  len r := r.docs.length % 2 ^ 32
  pos r := r.pos
  peek r := .ok (r.peek, r)
  next r := .ok r.next
  advance r target := .ok (advanceLoop target (r.docs.length - r.pos + 1) r)

/-- Somewhere in the list, whose length a `u32` holds. -/
structure Inv (docs : List Nat) (r : PlainReader) : Prop where
  docs_eq : r.docs = docs
  pos_le : r.pos ≤ docs.length
  length_lt : docs.length < 2 ^ 32

variable {docs : List Nat}

theorem Inv.step (h : Inv docs r) (hlt : r.pos < docs.length) :
    Inv docs r.step ∧ r.step.pos = r.pos + 1 := by
  obtain ⟨hdocs, hle, hlen⟩ := h
  have hpos : r.step.pos = r.pos + 1 := by
    simp only [PlainReader.step]
    omega
  exact ⟨⟨hdocs, by omega, hlen⟩, hpos⟩

theorem advanceLoop_eq (target fuel : Nat) (h : Inv docs r) (hfuel : docs.length - r.pos < fuel) :
    ∃ r', advanceLoop target fuel r = (docs[r'.pos]?, r') ∧ Inv docs r' ∧
      Lands docs target r.pos r'.pos := by
  induction fuel generalizing r with
  | zero => omega
  | succ fuel ih =>
    rw [advanceLoop, peek, h.docs_eq]
    obtain ⟨hd, -, hstay⟩ | ⟨d, hd, hlt, ⟨hreach, hstay⟩ | hlow⟩ :=
      Lands.here_or_below h.pos_le target
    · exact ⟨r, by simp [hd], h, hstay⟩
    · exact ⟨r, by simp [hd, hreach], h, hstay⟩
    obtain ⟨hstep, hpos⟩ := h.step hlt
    obtain ⟨r', hr', hinv, hlands⟩ := ih hstep (by omega)
    refine ⟨r', by simp [hd, hlow, hr'], hinv, ?_⟩
    rw [hpos] at hlands
    exact hlands.of_succ hd hlow

theorem docTracks (docs : List Nat) : DocTracks docs (Inv docs) where
  len h := by
    simp only [PostingReader.len, h.docs_eq]
    exact Nat.mod_eq_of_lt h.length_lt
  pos_le h := h.pos_le
  peek {r} h := ⟨r, by simp [PostingReader.peek, PostingReader.pos, peek, h.docs_eq], h, rfl⟩
  next {r} h := by
    simp only [PostingReader.next, PostingReader.pos, PlainReader.next, peek, h.docs_eq]
    cases hd : docs[r.pos]? with
    | none =>
      have := List.getElem?_eq_none_iff.mp hd
      have hle := h.pos_le
      exact ⟨r, rfl, h, by omega⟩
    | some d =>
      have hlt := (List.getElem?_eq_some_iff.mp hd).1
      obtain ⟨hstep, hpos⟩ := h.step hlt
      exact ⟨r.step, rfl, hstep, by omega⟩
  advance {r} target h := by
    obtain ⟨r', hr', hinv, hlands⟩ := advanceLoop_eq target (r.docs.length - r.pos + 1) h (by
      rw [h.docs_eq]
      omega)
    exact ⟨r', by simp [PostingReader.advance, PostingReader.pos, hr'], hinv, hlands⟩

theorem tracks (docs : List Nat) : Tracks (single docs) (Inv docs) :=
  (docTracks docs).tracks (fun _ => rfl) (fun _ => rfl)

/-- A plain reader with the cursor it stands for. -/
def At (r : PlainReader) (c : Cursor) : Prop :=
  ∃ docs, Inv docs r ∧ c = Cursor.seek (single docs) r.pos

theorem simulates : Simulates PlainReader.At :=
  Simulates.exists fun docs => (tracks docs).simulates

theorem new_at {docs : List Nat} (h : docs.length < 2 ^ 32) :
    (PlainReader.new docs).At (Cursor.start (single docs)) :=
  ⟨docs, ⟨rfl, Nat.zero_le _, h⟩, rfl⟩

end PlainReader

end Gleaph.Postings
