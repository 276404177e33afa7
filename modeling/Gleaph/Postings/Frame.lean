import Gleaph.Postings.BitIo
import Gleaph.Postings.Varint

/-!
# Gleaph.Postings.Frame

Frame-of-reference postings
(`crates/ic-stable-text-postings/src/enc/frame.rs`): blocks of 128 docids, each
stored as its first docid and the distances from it, packed at the width of
the largest.
-/

namespace Gleaph.Postings

def forBlockSize : Nat := 128

/-! ## Encoding -/

/-- Width of the distances in a block. -/
def blockBits (block : List Nat) : Nat :=
  let span := block.getLastD 0 - block.headD 0
  if span = 0 then 0 else Nat.log2 span + 1

/-- The packed distances of a block. -/
def blockPayload (block : List Nat) : List UInt8 :=
  pack (blockBits block) (block.map fun v => v - block.headD 0)

def blockDescriptor (block : List Nat) : List UInt8 :=
  leBytes 4 (block.headD 0) ++ [UInt8.ofNat (blockBits block)]

/-- Descriptors, offsets and payload, block by block. -/
def encodeBlocks : List (List Nat) → List UInt8 × List Nat × List UInt8 :=
  List.foldl (fun (descriptors, offsets, payload) block =>
    (descriptors ++ blockDescriptor block, offsets ++ [payload.length % 2 ^ 32],
      payload ++ blockPayload block)) ([], [], [])

def encodeFrameOfReference (docs : List Nat) : Except String (List UInt8) := do
  assertStrictlyIncreasing docs
  let (descriptors, offsets, payload) := encodeBlocks (chunks forBlockSize docs)
  let offsets := offsets ++ [payload.length % 2 ^ 32]
  return leBytes 4 (docs.length % 2 ^ 32) ++
    (leBytes 4 (ceilDiv docs.length forBlockSize % 2 ^ 32) ++
      (descriptors ++ (offsets.flatMap (leBytes 4) ++ payload)))

/-! ## Reading -/

def headerField : String := "corrupt postings: header field truncated"

/-- A `u32` header field. -/
def readU32 (data : List UInt8) (offset : Nat) : Except String Nat :=
  readWord headerField 4 data offset

structure ForReader where
  data : List UInt8
  headerEnd : Nat
  count : Nat
  bases : List Nat
  widths : List Nat
  offsets : List Nat
  pos : Nat
  /-- `u32::MAX` while nothing is cached. -/
  cachedBlock : Nat
  cache : List Nat

namespace ForReader

/-- Parse the tables; blocks are decoded lazily. -/
def new (data : List UInt8) : Except String ForReader := do
  if data.length < 8 then throw "corrupt postings: for header truncated"
  let count ← readU32 data 0
  let blockCount ← readU32 data 4
  if blockCount = 0 ∨ count ≤ (blockCount - 1) * forBlockSize then
    throw "corrupt postings: for block count does not cover count"
  let offsStart := 8 + blockCount * 5
  let headerEnd := offsStart + (blockCount + 1) * 4
  if data.length < headerEnd then throw "corrupt postings: for header truncated"
  let bases ← (List.range blockCount).mapM fun b => readU32 data (8 + b * 5)
  let widths ← (List.range blockCount).mapM fun b =>
    UInt8.toNat <$> expect "index out of bounds" data[8 + b * 5 + 4]?
  let offsets ← (List.range (blockCount + 1)).mapM fun b => readU32 data (offsStart + b * 4)
  return ⟨data, headerEnd, count, bases, widths, offsets, 0, 2 ^ 32 - 1, []⟩

/-- Decode a block into the cache. -/
def ensureBlock (r : ForReader) (block : Nat) : Except String ForReader := do
  if r.cachedBlock = block then return r
  let start ← expect "index out of bounds" r.offsets[block]?
  let stop ← expect "index out of bounds" r.offsets[block + 1]?
  let bytes ← expect "corrupt postings: for block payload truncated"
    (slice r.data (r.headerEnd + start) (r.headerEnd + stop))
  let elems := if block = r.bases.length - 1 then r.count - (r.bases.length - 1) * forBlockSize
    else forBlockSize
  let base ← expect "index out of bounds" r.bases[block]?
  let width ← expect "index out of bounds" r.widths[block]?
  let cache ← (List.range elems).mapM fun i => do
    let value ← readBits bytes (i * width) width
    return (base + value) % 2 ^ 32
  return { r with cachedBlock := block, cache }

def peek (r : ForReader) : Except String (Option Nat × ForReader) := do
  if r.count ≤ r.pos then return (none, r)
  let r ← r.ensureBlock (r.pos / forBlockSize)
  let value ← expect "index out of bounds" r.cache[r.pos % forBlockSize]?
  return (some value, r)

def next (r : ForReader) : Except String (Option Nat × ForReader) := do
  let (value, r) ← r.peek
  if value.isSome then return (value, { r with pos := (r.pos + 1) % 2 ^ 32 })
  else return (value, r)

/-- Index and value of the first cached docid from `start` on that reaches the
target. -/
def scanCache (cache : List Nat) (target start : Nat) : Option (Nat × Nat) :=
  ((List.range' start (cache.length - start)).find? fun i => target ≤ cache.getD i 0).map
    fun i => (i, cache.getD i 0)

/-- The block-by-block search of `locate`; there are no more rounds than
blocks. -/
def locateLoop (target frontierBlock : Nat) :
    Nat → Nat → ForReader → Except String (Option (Nat × Nat) × ForReader)
  | 0, _, _ => .error "out of fuel"
  | fuel + 1, block, r => do
    let r ← r.ensureBlock block
    let start := if block = frontierBlock then r.pos % forBlockSize else 0
    match scanCache r.cache target start with
    | some (i, v) => return (some ((block * forBlockSize + i) % 2 ^ 32, v), r)
    | none =>
      if r.bases.length ≤ block + 1 then return (none, r)
      else locateLoop target frontierBlock fuel (block + 1) r

/-- Index and value of the first posting left that reaches the target. -/
def locate (r : ForReader) (target : Nat) :
    Except String (Option (Nat × Nat) × ForReader) := do
  let (current, r) ← r.peek
  match current.filter (target ≤ ·) with
  | some value => return (some (r.pos, value), r)
  | none =>
    if r.count ≤ r.pos then return (none, r)
    let frontierBlock := r.pos / forBlockSize
    let block := max ((r.bases.takeWhile (· ≤ target)).length - 1) frontierBlock
    locateLoop target frontierBlock (r.bases.length - block) block r

def advance (r : ForReader) (target : Nat) : Except String (Option Nat × ForReader) := do
  let (found, r) ← r.locate target
  match found with
  | some (index, value) => return (some value, { r with pos := index })
  | none => return (none, { r with pos := r.count })

instance : PostingReader ForReader where
  len r := r.count
  pos r := r.pos
  peek := peek
  next := next
  advance := advance

end ForReader

end Gleaph.Postings
