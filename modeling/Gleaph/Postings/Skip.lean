import Gleaph.BinarySearch
import Gleaph.Layout
import Gleaph.Postings.Reader

/-!
# Gleaph.Postings.Skip

The bi-level skip trailer of the delta codecs
(`crates/ic-stable-text-postings/src/enc/skip.rs`).

Level 0 has one entry per 128 postings, level 1 one per 32 level-0 blocks; an
entry carries the last docid of its span, the offset where the span starts
and, in frequency mode, its number of postings.  `u32` casts and additions
wrap.

The spec side fixes a list by its docids `doc i` and the offsets `offset i`
at which its postings start, for `i < n`: the builder leaves one `blockOf`
per block (`finish_blocks`), and a landing is the start of a block that has
everything before it below the target (`jumpLanding_spec`).
-/

namespace Gleaph.Postings

def skipLevel1Stride : Nat := 32

/-! ## Building the trailer -/

/-- A closed block: last docid, start offset, number of postings. -/
structure SkipBlock where
  endDocid : Nat
  offset : Nat
  count : Nat
  deriving DecidableEq, Repr

structure SkipBuilder where
  blocks : List SkipBlock
  openOffset : Option Nat
  openCount : Nat
  prevDocid : Nat
  deriving DecidableEq, Repr

namespace SkipBuilder

def new : SkipBuilder := ⟨[], none, 0, 0⟩

/-- Close the open block, if any. -/
def closeBlock (b : SkipBuilder) : SkipBuilder :=
  match b.openOffset with
  | some offset =>
    { b with
      blocks := b.blocks ++ [⟨b.prevDocid, offset % 2 ^ 32, b.openCount⟩]
      openOffset := none
      openCount := 0 }
  | none => b

/-- Record the posting at index `pos`, which starts at `offset`. -/
def posting (b : SkipBuilder) (pos offset docid : Nat) : SkipBuilder :=
  let b := if pos % logicalBlockSize = 0 then { b.closeBlock with openOffset := some offset } else b
  { b with openCount := (b.openCount + 1) % 2 ^ 32, prevDocid := docid }

end SkipBuilder

/-- One entry on the wire. -/
def writeEntry (freqMode : Bool) (e : SkipBlock) : List UInt8 :=
  leBytes 4 e.endDocid ++ leBytes 4 e.offset ++ if freqMode then leBytes 4 e.count else []

def plainEntryBytes : Nat := 8

def freqEntryBytes : Nat := 12

def entryWidth (freqMode : Bool) : Nat := if freqMode then freqEntryBytes else plainEntryBytes

/-- Every entry of the trailer has the same width. -/
@[simp] theorem length_writeEntry (freqMode : Bool) (e : SkipBlock) :
    (writeEntry freqMode e).length = entryWidth freqMode := by
  cases freqMode <;> simp [writeEntry, entryWidth, plainEntryBytes, freqEntryBytes]

/-- The level-1 entry over the blocks of one stride. -/
def strideOf (blocks : List SkipBlock) (s : Nat) : SkipBlock :=
  let window := (blocks.drop (s * skipLevel1Stride)).take skipLevel1Stride
  ⟨(window.getLast?.map SkipBlock.endDocid).getD 0, (window.head?.map SkipBlock.offset).getD 0,
    (window.map SkipBlock.count).sum % 2 ^ 32⟩

/-- The strides over some blocks. -/
def countStrides (blocks : Nat) : Nat := ceilDiv blocks skipLevel1Stride

def strides (blocks : List SkipBlock) : List SkipBlock :=
  (List.range (countStrides blocks.length)).map (strideOf blocks)

/-- The trailer of the closed blocks. -/
def trailer (freqMode : Bool) (blocks : List SkipBlock) : List UInt8 :=
  blocks.flatMap (writeEntry freqMode) ++ ((strides blocks).flatMap (writeEntry freqMode) ++
    leBytes 4 (blocks.length % 2 ^ 32))

/-- Serialize the trailer behind the payload. -/
def SkipBuilder.finish (b : SkipBuilder) (freqMode : Bool) : List UInt8 :=
  trailer freqMode b.closeBlock.blocks

/-! ## Reading the trailer -/

structure SkipIndex where
  level0Offset : Nat
  skipCount : Nat
  strideCount : Nat
  entryBytes : Nat
  withCounts : Bool
  deriving DecidableEq, Repr

namespace SkipIndex

/-- The blocks of some postings. -/
def blockCount (count : Nat) : Nat := ceilDiv count logicalBlockSize

/-- The index from the buffer's tail, and the end of the payload. -/
def parse (data : List UInt8) (count entryBytes : Nat) (withCounts : Bool) (codec : String) :
    Except String (SkipIndex × Nat) := do
  let total := data.length
  if total < 4 + 4 + entryBytes then
    throw s!"corrupt postings: {codec} skip trailer truncated"
  let skipCount ← readWord s!"corrupt postings: {codec} skip count out of bounds" 4 data (total - 4)
  let maxBlocks := blockCount count
  if maxBlocks < skipCount then
    throw s!"corrupt postings: {codec} skip block count {skipCount} exceeds {maxBlocks}"
  let strideCount := countStrides skipCount
  let tail := 4 + skipCount * entryBytes + strideCount * entryBytes
  if total < tail then
    throw s!"corrupt postings: {codec} skip trailer larger than buffer"
  let payloadEnd := total - tail
  if payloadEnd < 4 then
    throw s!"corrupt postings: {codec} skip trailer overlaps payload"
  return (⟨payloadEnd, skipCount, strideCount, entryBytes, withCounts⟩, payloadEnd)

def isEmpty (idx : SkipIndex) : Bool := idx.skipCount == 0

def skipEntry : String := "corrupt postings: corrupt postings: skip entry out of bounds"

variable (idx : SkipIndex) (data : List UInt8)

/-- The entry at a byte offset. -/
def readEntry (base : Nat) : Except String (Nat × Nat × Option Nat) := do
  let endDocid ← readWord skipEntry 4 data base
  let offset ← readWord skipEntry 4 data (base + 4)
  if idx.withCounts then
    let count ← readWord skipEntry 4 data (base + 8)
    return (endDocid, offset, some count)
  else return (endDocid, offset, none)

/-- Level-0 entry. -/
def block (index : Nat) : Except String (Nat × Nat × Option Nat) :=
  idx.readEntry data (idx.level0Offset + index * idx.entryBytes)

/-- Level-1 entry. -/
def stride (index : Nat) : Except String (Nat × Nat × Option Nat) :=
  idx.readEntry data (idx.level0Offset + idx.skipCount * idx.entryBytes + index * idx.entryBytes)

/-- The stored posting counts of some blocks, added to a start. -/
def countPostings (start : Nat) (blocks : List Nat) : Except String Nat :=
  blocks.foldlM (fun counted index => do
    let (_, _, count) ← idx.block data index
    return (counted + count.getD 0) % 2 ^ 32) start

/-- Where to land for a target: offset, posting index and accumulated docid at
the start of the first block that ends at or beyond it; `none` when there is
no such block or it does not lie ahead. -/
def jumpLanding (target currentBytePos : Nat) : Except String (Option (Nat × Nat × Nat)) := do
  if idx.skipCount = 0 ∨ target = 0 then return none
  let lo ← lowerBound (fun mid => do
    let (endDocid, _, _) ← idx.stride data mid
    return decide (endDocid < target)) 0 idx.strideCount
  let strideStart := lo * skipLevel1Stride
  let blo ← lowerBound (fun mid => do
    let (endDocid, _, _) ← idx.block data mid
    return decide (endDocid < target)) strideStart (min idx.skipCount (strideStart + skipLevel1Stride))
  if idx.skipCount ≤ blo then return none
  let (_, byteOffset, _) ← idx.block data blo
  if byteOffset ≤ currentBytePos then return none
  let posBefore := blo * logicalBlockSize % 2 ^ 32
  if idx.withCounts then
    -- debug builds check the stored counts against the position
    let first := blo / skipLevel1Stride * skipLevel1Stride
    let counted ← idx.countPostings data (first * logicalBlockSize % 2 ^ 32)
      ((List.range (blo - first)).map (first + ·))
    if counted ≠ posBefore then throw "assertion failed: counted == pos_before"
  if blo = 0 then return some (byteOffset, posBefore, 0)
  let (prev, _, _) ← idx.block data (blo - 1)
  return some (byteOffset, posBefore, prev)

end SkipIndex

end Gleaph.Postings
