import Gleaph.Postings.EliasFano

/-!
# Gleaph.Postings.PartitionedEf

Partitioned Elias-Fano postings
(`crates/ic-stable-text-postings/src/enc/partitioned_ef.rs`): partitions of 64
docids, each an Elias-Fano blob of its own, and an Elias-Fano list of the
partitions' last docids to choose among them.
-/

namespace Gleaph.Postings

def pefPartitionSize : Nat := 64

/-! ## Encoding -/

/-- The last docid of every partition. -/
def partitionBounds (docs : List Nat) : List Nat :=
  (chunks pefPartitionSize docs).map fun part => part.getLastD 0

/-- Offsets and blobs, partition by partition. -/
def encodePartitions (parts : List (List Nat)) : Except String (List Nat × List UInt8) :=
  parts.foldlM (fun (offsets, partitions) part => do
    let blob ← encodeEliasFano part
    return (offsets ++ [partitions.length % 2 ^ 32], partitions ++ blob)) ([], [])

def encodePartitionedEf (docs : List Nat) : Except String (List UInt8) := do
  assertStrictlyIncreasing docs
  let bounds ← encodeEliasFano (partitionBounds docs)
  let (offsets, partitions) ← encodePartitions (chunks pefPartitionSize docs)
  let offsets := offsets ++ [partitions.length % 2 ^ 32]
  return leBytes 4 (docs.length % 2 ^ 32) ++ (leBytes 4 pefPartitionSize ++
    (leBytes 4 (bounds.length % 2 ^ 32) ++ (bounds ++ (offsets.flatMap (leBytes 4) ++ partitions))))

/-! ## Reading -/

structure PefReader where
  data : List UInt8
  partsStart : Nat
  partOffsets : List Nat
  count : Nat
  partSize : Nat
  /-- Reader over the partitions' last docids. -/
  bounds : EfReader
  pos : Nat
  /-- A partition and a reader over it. -/
  active : Option (Nat × EfReader)

namespace PefReader

/-- Parse the header, the bounds and the offset table. -/
def new (data : List UInt8) : Except String PefReader := do
  if data.length < 12 then throw "corrupt postings: pef header truncated"
  let count ← readU32 data 0
  let partSize ← readU32 data 4
  let boundsLen ← readU32 data 8
  if partSize ≠ pefPartitionSize ∨ count = 0 ∨ data.length < 12 + boundsLen then
    throw "corrupt postings: pef header inconsistent"
  let bytes ← expect "slice out of bounds" (slice data 12 (12 + boundsLen))
  let bounds ← EfReader.new bytes
  if bounds.count ≠ ceilDiv count partSize then
    throw "corrupt postings: pef partition count mismatch"
  let offsStart := 12 + boundsLen
  let partsStart := offsStart + (bounds.count + 1) * 4
  if data.length < partsStart then throw "corrupt postings: pef offsets truncated"
  let partOffsets ← (List.range (bounds.count + 1)).mapM fun b => readU32 data (offsStart + b * 4)
  return ⟨data, partsStart, partOffsets, count, partSize, bounds, 0, none⟩

section

variable (r : PefReader)

/-- A fresh reader over a partition. -/
def partitionReader (part : Nat) : Except String EfReader := do
  let start ← expect "index out of bounds" r.partOffsets[part]?
  let stop ← expect "index out of bounds" r.partOffsets[part + 1]?
  let bytes ← expect "corrupt postings: pef partition truncated"
    (slice r.data (r.partsStart + start) (r.partsStart + stop))
  EfReader.new bytes

/-- Read past some postings. -/
def forward : Nat → EfReader → Except String EfReader
  | 0, reader => .ok reader
  | steps + 1, reader => do
    let (_, reader) ← reader.next
    forward steps reader

/-- A reader over a partition, at the reader's index in it. -/
def activeFor (part : Nat) : Except String EfReader := do
  let reader ← r.partitionReader part
  forward (r.pos % r.partSize) reader

/-- The active reader if it is on the partition, else a fresh one. -/
def install (part : Nat) : Except String EfReader :=
  match r.active with
  | some (p, reader) => if p = part then .ok reader else r.activeFor part
  | none => r.activeFor part

def peek : Except String (Option Nat × PefReader) := do
  if r.count ≤ r.pos then return (none, r)
  let part := r.pos / r.partSize
  let reader ← r.install part
  let (value, reader) ← reader.peek
  return (value, { r with active := some (part, reader) })

def next : Except String (Option Nat × PefReader) := do
  let (value, r) ← r.peek
  if value.isSome then
    let (part, reader) ← expect "peek installed partition above" r.active
    let (_, reader) ← reader.next
    return (value, { r with active := some (part, reader), pos := (r.pos + 1) % 2 ^ 32 })
  else return (value, r)

/-- Rule out leading partitions that end below the target; `false` when all
are.  Every round rules out one. -/
def ruleOut (target : Nat) : Nat → EfReader → Except String (Bool × EfReader)
  | 0, _ => .error "out of fuel"
  | fuel + 1, bounds => do
    let (bound, bounds) ← bounds.peek
    match bound with
    | none => return (false, bounds)
    | some bound =>
      if target ≤ bound then return (true, bounds)
      let (_, bounds) ← bounds.next
      ruleOut target fuel bounds

def advance (target : Nat) : Except String (Option Nat × PefReader) := do
  let (current, r) ← r.peek
  match current.filter (target ≤ ·) with
  | some current => return (some current, r)
  | none =>
    if r.count ≤ r.pos then return (none, r)
    let (found, bounds) ← ruleOut target (r.bounds.count - r.bounds.pos + 1) r.bounds
    if found then
      let part := max bounds.pos (r.pos / r.partSize)
      let reader ← r.partitionReader part
      let (value, reader) ← reader.advance target
      match value with
      | none => return (none, { r with bounds, pos := r.count })
      | some value =>
        let pos := (part * r.partSize + reader.pos) % 2 ^ 32
        return (some value, { r with bounds, pos, active := some (part, reader) })
    else return (none, { r with bounds, pos := r.count })

end

instance : PostingReader PefReader where
  len r := r.count
  pos r := r.pos
  peek := peek
  next := next
  advance := advance

end PefReader

end Gleaph.Postings
