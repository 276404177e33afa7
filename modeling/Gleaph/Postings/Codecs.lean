import Gleaph.Postings.Varint.Sound
import Gleaph.Postings.PartitionedEf.Sound

/-!
# Gleaph.Postings.Codecs

Every codec of the crate reads back what the plain reader reads.

A codec's answers to a sequence of calls are those of a fresh reader over the
encoded list.  The frequency codec is compared with the plain reader next to
the list of frequencies, capped at what its one byte holds.
-/

namespace Gleaph.Postings

open PostingReader

/-! ## Encoding and reading back -/

/-- The codecs for docids alone. -/
inductive Codec where
  | varint
  | frameOfReference
  | eliasFano
  | partitionedEf
  deriving DecidableEq, Repr

/-- Encode, open a reader and call it. -/
def Codec.answers (docs : List Nat) (ks : List Call) : Codec → Except String (List Answer)
  | .varint => do
    let data ← encodeVarint docs
    let r ← DeltaReader.new Postings.varint data
    runCalls ks r
  | .frameOfReference => do
    let data ← encodeFrameOfReference docs
    let r ← ForReader.new data
    runCalls ks r
  | .eliasFano => do
    let data ← encodeEliasFano docs
    let r ← EfReader.new data
    runCalls ks r
  | .partitionedEf => do
    let data ← encodePartitionedEf docs
    let r ← PefReader.new data
    runCalls ks r

def freqAnswers (docs tfs : List Nat) (ks : List Call) : Except String (List Answer) := do
  let data ← encodeFreqVarint docs tfs
  let r ← DeltaReader.new freqVarint data
  runCalls ks r

/-! ## The reference for frequencies -/

/-- A plain reader with the term frequencies at hand. -/
structure PlainFreqReader where
  plain : PlainReader
  tfs : List Nat

namespace PlainFreqReader

def new (docs tfs : List Nat) : PlainFreqReader := ⟨PlainReader.new docs, tfs⟩

/-- The frequency at the plain reader's index, capped at a byte. -/
def freq (r : PlainFreqReader) : Nat := min (r.tfs.getD r.plain.pos 0) 255

/-- What the plain reader does, with the frequencies carried along. -/
def lift {α : Type} (r : PlainFreqReader) (x : Except String (α × PlainReader)) :
    Except String (α × PlainFreqReader) := do
  let (a, plain) ← x
  return (a, { r with plain })

/-- What the plain reader answers, the reader with frequencies answers. -/
theorem lift_eq {α : Type} {r : PlainFreqReader} {x : Except String (α × PlainReader)} {a : α}
    {plain : PlainReader} (h : x = .ok (a, plain)) : r.lift x = .ok (a, { r with plain }) := by
  rw [lift, h]
  rfl

instance : PostingReader PlainFreqReader where
  len r := len r.plain
  pos r := pos r.plain
  peek r := r.lift (peek r.plain)
  next r := r.lift (next r.plain)
  advance r target := r.lift (advance r.plain target)
  tf r := .ok (r.plain.peek.map fun _ => r.freq, r)
  nextStep r := do
    let (docid, next) ← r.lift (next r.plain)
    return (docid.map fun docid => (docid, r.freq), next)

/-- The postings such a reader stands for. -/
def postings (docs tfs : List Nat) : List Posting := docs.zip (tfs.map fun tf => min tf 255)

section Tracking

variable {docs tfs : List Nat} (htfs : tfs.length = docs.length)

include htfs

/-- There is a posting for each docid. -/
theorem length_postings : (postings docs tfs).length = docs.length := by
  simp [postings, htfs]

/-- The docids of the postings are those given. -/
theorem map_fst_postings : (postings docs tfs).map Prod.fst = docs := by
  rw [postings, List.map_fst_zip]
  simp [htfs]

/-- So they are at every index. -/
theorem getElem?_fst_postings (i : Nat) : (postings docs tfs)[i]?.map Prod.fst = docs[i]? := by
  rw [← List.getElem?_map, map_fst_postings htfs]

/-- A posting carries its frequency, at most 255 and zero where none was given.
-/
theorem getElem?_postings (i : Nat) :
    (postings docs tfs)[i]? = docs[i]?.map fun d => (d, min (tfs.getD i 0) 255) := by
  by_cases hi : i < docs.length
  · have hi' : i < tfs.length := htfs ▸ hi
    simp [postings, hi, hi', List.zip]
  have hnone : (postings docs tfs)[i]? = none := by
    rw [List.getElem?_eq_none_iff, length_postings htfs]
    exact Nat.not_lt.mp hi
  simp [hnone, List.getElem?_eq_none_iff.mpr (Nat.not_lt.mp hi)]

/-- The reader with frequencies answers as a cursor on its postings. -/
theorem tracks :
    Tracks (postings docs tfs) fun r : PlainFreqReader => r.plain.Inv docs ∧ r.tfs = tfs where
  len h := (PlainReader.docTracks docs).len h.1 |>.trans (length_postings htfs).symm
  pos_le h := by
    rw [length_postings htfs]
    exact (PlainReader.docTracks docs).pos_le h.1
  peek {r} h := by
    obtain ⟨plain, hplain, hinv, hpos⟩ := (PlainReader.docTracks docs).peek h.1
    refine ⟨{ r with plain }, ?_, ⟨hinv, h.2⟩, hpos⟩
    rw [getElem?_fst_postings htfs]
    exact lift_eq hplain
  next {r} h := by
    obtain ⟨plain, hplain, hinv, hpos⟩ := (PlainReader.docTracks docs).next h.1
    refine ⟨{ r with plain }, ?_, ⟨hinv, h.2⟩, hpos.trans (by rw [length_postings htfs]; rfl)⟩
    rw [getElem?_fst_postings htfs]
    exact lift_eq hplain
  advance {r} target h := by
    obtain ⟨plain, hplain, hinv, hlands⟩ := (PlainReader.docTracks docs).advance target h.1
    refine ⟨{ r with plain }, ?_, ⟨hinv, h.2⟩, by rw [map_fst_postings htfs]; exact hlands⟩
    rw [getElem?_fst_postings htfs]
    exact lift_eq hplain
  tf {r} h := by
    refine ⟨r, ?_, h, rfl⟩
    simp only [tf, pos, PlainReader.peek, h.1.docs_eq, freq, h.2,
      getElem?_postings htfs, Option.map_map]
    rfl
  nextStep {r} h := by
    obtain ⟨plain, hplain, hinv, hpos⟩ := (PlainReader.docTracks docs).next h.1
    refine ⟨{ r with plain }, ?_, ⟨hinv, h.2⟩, hpos.trans (by rw [length_postings htfs]; rfl)⟩
    simp only [nextStep, lift_eq hplain, ok_bind, getElem?_postings htfs, pure_eq_ok,
      freq, h.2]
    rfl

/-- So a whole run of calls has the cursor's answers. -/
theorem runCalls_eq (hlen : docs.length < 2 ^ 32) (ks : List Call) :
    runCalls ks (new docs tfs) = .ok ((Cursor.start (postings docs tfs)).runCalls ks) :=
  (tracks htfs).simulates.runCalls_eq ks ⟨⟨⟨rfl, Nat.zero_le _, hlen⟩, rfl⟩, rfl⟩

end Tracking

end PlainFreqReader

/-! ## Reading back -/

/-- A fresh reader that tracks the encoded postings answers as their cursor. -/
theorem runCalls_of_fresh {R : Type} [PostingReader R] {Inv : R → Prop} (h : Tracks postings Inv)
    {r : R} (hr : Inv r) (hpos : pos r = 0) (ks : List Call) :
    runCalls ks r = .ok ((Cursor.start postings).runCalls ks) :=
  h.simulates.runCalls_eq ks ⟨hr, by rw [hpos]; rfl⟩

/-- Docids with as many frequencies can be encoded. -/
theorem DocList.encodable_zip (h : DocList docs) (htfs : tfs.length = docs.length) :
    Encodable (docs.zip tfs) := by
  have hfst : (docs.zip tfs).map Prod.fst = docs := List.map_fst_zip htfs.ge
  have hlen : (docs.zip tfs).length = docs.length := by simp [htfs]
  refine ⟨?_, fun p hp => ?_, hlen ▸ h.nonempty, hlen ▸ h.length_lt⟩
  · have := h.increasing
    rw [← hfst, List.pairwise_map] at this
    exact this
  · exact h.docid_lt p.1 (hfst ▸ List.mem_map_of_mem hp)

/-- So can docids alone. -/
theorem DocList.encodable_single {docs : List Nat} (h : DocList docs) : Encodable (single docs) := by
  refine ⟨?_, fun p hp => ?_, ?_, ?_⟩
  · rw [single, List.pairwise_map]
    exact h.increasing
  · obtain ⟨d, hd, rfl⟩ := List.mem_map.mp hp
    exact h.docid_lt d hd
  · simpa [single] using h.nonempty
  · simpa [single] using h.length_lt

/-- Docids read back as they are. -/
theorem readBack_varint (docs : List Nat) :
    Postings.varint.readBack (single docs) = single docs := by
  simp [DeltaCodec.readBack, Postings.varint, single]

/-- Frequencies read back cut off at 255. -/
theorem readBack_freqVarint (docs tfs : List Nat) :
    freqVarint.readBack (docs.zip tfs) = PlainFreqReader.postings docs tfs := by
  simp only [DeltaCodec.readBack, freqVarint, if_true, PlainFreqReader.postings,
    List.zip_map_right]
  rfl

section ReadBack

variable {docs : List Nat} (h : DocList docs)

include h

/-- Whatever the codec, the answers to a run of calls are those of a cursor on
the docids. -/
theorem Codec.answers_eq (c : Codec) (ks : List Call) :
    c.answers docs ks = .ok ((Cursor.start (single docs)).runCalls ks) := by
  have hinc := h.assertStrictlyIncreasing
  cases c with
  | varint =>
    obtain ⟨r, hr, hinv, hpos⟩ := DeltaReader.new_eq (c := Postings.varint) h.encodable_single
    have hrun := runCalls_of_fresh (DeltaReader.tracks h.encodable_single) hinv hpos ks
    rw [readBack_varint] at hrun
    simp only [answers, encodeVarint, hinc, ok_bind, pure_eq_ok, hr, hrun]
  | frameOfReference =>
    obtain ⟨data, hdata⟩ : ∃ data, encodeFrameOfReference docs = .ok data := by
      simp [encodeFrameOfReference, hinc, encodeBlocks_eq]
    obtain ⟨r, hr, hinv, hpos⟩ := ForReader.new_eq h (ForReader.layout h hdata)
    have hrun := runCalls_of_fresh
      ((ForReader.docTracks h).tracks (fun _ => rfl) (fun _ => rfl)) hinv hpos ks
    simp only [answers, hdata, ok_bind, hr, hrun]
  | eliasFano =>
    obtain ⟨r, hr, hinv, hpos⟩ := EfReader.new_eq h
    have hrun := runCalls_of_fresh
      ((EfReader.docTracks h).tracks (fun _ => rfl) (fun _ => rfl)) hinv hpos ks
    simp only [answers, h.encodeEliasFano, ok_bind, hr, hrun]
  | partitionedEf =>
    obtain ⟨data, hdata⟩ : ∃ data, encodePartitionedEf docs = .ok data := by
      simp [encodePartitionedEf, hinc, h.partitionBounds.encodeEliasFano, pefPartitionSize,
        encodePartitions_eq fun part hp => PefReader.docList_of_mem_chunks h hp]
    obtain ⟨r, hr, hinv, hpos⟩ := PefReader.new_eq h (PefReader.layout h hdata)
    have hrun := runCalls_of_fresh
      ((PefReader.docTracks h).tracks (fun _ => rfl) (fun _ => rfl)) hinv hpos ks
    simp only [answers, hdata, ok_bind, hr, hrun]

end ReadBack

/-- So are those of the reader that keeps the docids in memory. -/
theorem PlainReader.runCalls_eq {docs : List Nat} (hlen : docs.length < 2 ^ 32) (ks : List Call) :
    runCalls ks (PlainReader.new docs) = .ok ((Cursor.start (single docs)).runCalls ks) :=
  PlainReader.simulates.runCalls_eq ks (PlainReader.new_at hlen)

/-- On every list a 32-bit address space can hold, every codec answers every
sequence of calls as the plain reader does, and no call panics. -/
theorem codecs_answer_as_plain {docs tfs : List Nat} (h : DocList docs)
    (htfs : tfs.length = docs.length) (ks : List Call) :
    (∀ c : Codec, c.answers docs ks = runCalls ks (PlainReader.new docs)) ∧
      freqAnswers docs tfs ks = runCalls ks (PlainFreqReader.new docs tfs) ∧
      (∃ answers, runCalls ks (PlainReader.new docs) = .ok answers) ∧
      ∃ answers, runCalls ks (PlainFreqReader.new docs tfs) = .ok answers := by
  have hlen : docs.length < 2 ^ 32 := h.length_lt.trans (by decide)
  have hplain := PlainReader.runCalls_eq hlen ks
  have hfreq := PlainFreqReader.runCalls_eq htfs hlen ks
  refine ⟨fun c => ?_, ?_, ⟨_, hplain⟩, _, hfreq⟩
  · rw [c.answers_eq h, hplain]
  · have henc := h.encodable_zip htfs
    obtain ⟨r, hr, hinv, hpos⟩ := DeltaReader.new_eq (c := freqVarint) henc
    have hrun := runCalls_of_fresh (DeltaReader.tracks henc) hinv hpos ks
    rw [readBack_freqVarint] at hrun
    rw [hfreq]
    simp [freqAnswers, encodeFreqVarint, h.assertStrictlyIncreasing, htfs.symm, hr, hrun]

/-- Two postings, the second frequency above the cap. -/
theorem codecs_answer_as_plain_pair :
    (∀ c : Codec, c.answers [3, 300] [.next, .advance 4, .pos] =
        .ok [.docid (some 3), .docid (some 300), .index 1]) ∧
      freqAnswers [3, 300] [2, 999] [.tf, .nextStep, .tf] =
        .ok [.freq (some 2), .posting (some (3, 2)), .freq (some 255)] := by
  have hdocs : DocList [3, 300] := ⟨by decide, by decide, by decide, by decide⟩
  have htfs : [2, 999].length = [3, 300].length := rfl
  have hplain : runCalls [.next, .advance 4, .pos] (PlainReader.new [3, 300]) =
      .ok [.docid (some 3), .docid (some 300), .index 1] := by decide
  have hfreq : runCalls [.tf, .nextStep, .tf] (PlainFreqReader.new [3, 300] [2, 999]) =
      .ok [.freq (some 2), .posting (some (3, 2)), .freq (some 255)] := by decide
  refine ⟨fun c => ?_, ?_⟩
  · rw [(codecs_answer_as_plain hdocs htfs _).1 c, hplain]
  · rw [(codecs_answer_as_plain hdocs htfs _).2.1, hfreq]

/-! ## The longest list -/

/-- A list whose length wraps to zero in the header's count cannot be read. -/
theorem EfReader.new_of_length_mod (h : docs.length % 2 ^ 32 = 0) :
    EfReader.new (eliasFanoBytes docs) = .error "corrupt postings: ef header inconsistent" := by
  have h0 := Holds.of_eq (eliasFanoBytes_eq docs)
  have hcount := h0.left.readWord_eq headerField
  have hl := h0.right.left.head
  have hlast := h0.right.right.left.readWord_eq headerField
  have hwords := h0.right.right.right.left
  have hwc := hwords.readWord_eq headerField
  have hlen := hwords.le
  simp only [length_leBytes, List.length_singleton, Nat.zero_add, Nat.reduceAdd, h,
    Nat.zero_mod] at hcount hl hlast hwc hlen
  simp only [new, readU32, if_neg (Nat.not_lt.mpr hlen), hcount, hl, expect_some, ok_bind, hlast, hwc]
  simp

/-- The list of all docids is one of them: its length is `2 ^ 32`, the stored
count is zero. -/
theorem codecs_reject_all_docids :
    (List.range (2 ^ 32)).Pairwise (· < ·) ∧ (∀ d ∈ List.range (2 ^ 32), d < 2 ^ 32) ∧
      0 < (List.range (2 ^ 32)).length ∧
      Codec.answers (List.range (2 ^ 32)) [] .eliasFano =
        .error "corrupt postings: ef header inconsistent" ∧
      runCalls [] (PlainReader.new (List.range (2 ^ 32))) = .ok [] := by
  have hlen : (List.range (2 ^ 32)).length = 2 ^ 32 := List.length_range
  have hpos : 0 < (List.range (2 ^ 32)).length := by rw [hlen]; exact Nat.two_pow_pos 32
  have hmod : (List.range (2 ^ 32)).length % 2 ^ 32 = 0 := by rw [hlen, Nat.mod_self]
  refine ⟨List.pairwise_lt_range, fun d hd => List.mem_range.mp hd, hpos, ?_, rfl⟩
  rw [Codec.answers, encodeEliasFano, assertStrictlyIncreasing_eq hpos List.pairwise_lt_range,
    ok_bind, pure_eq_ok, ok_bind, EfReader.new_of_length_mod hmod, error_bind]

end Gleaph.Postings
