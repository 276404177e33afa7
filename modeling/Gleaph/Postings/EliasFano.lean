import Gleaph.Postings.Frame

/-!
# Gleaph.Postings.EliasFano

Plain Elias-Fano postings
(`crates/ic-stable-text-postings/src/enc/elias_fano.rs`): the low bits of every
docid packed, the high bits as a unary bit vector in which posting `i` sets bit
`high + i`.

The reader scans the unary bits forward and keeps the high parts it has found
but not yet passed in a window.  Loops whose rounds are bounded by the data
carry that bound as fuel.
-/

namespace Gleaph.Postings

/-! ## Encoding -/

/-- `⌊log2 (last / n)⌋`, or zero. -/
def lowWidth (last n : Nat) : Nat :=
  if n % 2 ^ 32 = 0 then 0
  else if last / (n % 2 ^ 32) = 0 then 0
  else min (Nat.log2 (last / (n % 2 ^ 32))) 31

def setBit (words : List Nat) (bit : Nat) : List Nat :=
  words.modify (bit / 64) (· ||| 1 <<< (bit % 64))

/-- The unary bit vector of the high parts. -/
def unaryWords (l wordCount : Nat) (docs : List Nat) : List Nat :=
  docs.zipIdx.foldl (fun words (value, i) => setBit words ((value >>> l) + i))
    (List.replicate wordCount 0)

def lowBytes (l : Nat) (docs : List Nat) : List UInt8 :=
  if 0 < l then pack l (docs.map fun value => value &&& ((2 ^ 32 - 1) >>> (32 - l))) else []

/-- The bytes of a list that passes the check. -/
def eliasFanoBytes (docs : List Nat) : List UInt8 :=
  let n := docs.length
  let last := docs.getLastD 0
  let l := lowWidth last n
  let wordCount := ((last >>> l) + n) / 64 + 1
  leBytes 4 (n % 2 ^ 32) ++ ([UInt8.ofNat l] ++ (leBytes 4 last ++ (leBytes 4 (wordCount % 2 ^ 32) ++
    ((unaryWords l wordCount docs).flatMap (leBytes 8) ++ lowBytes l docs))))

def encodeEliasFano (docs : List Nat) : Except String (List UInt8) := do
  assertStrictlyIncreasing docs
  return eliasFanoBytes docs

/-! ## Reading -/

structure EfReader where
  data : List UInt8
  wordsStart : Nat
  lowsStart : Nat
  count : Nat
  l : Nat
  pos : Nat
  /-- High parts of the postings from `pos` up to `scanDone`. -/
  highs : List Nat
  scanDone : Nat
  /-- Bit position of the unary scan. -/
  scanBit : Nat

/-- Index of the lowest set bit of a 64-bit word. -/
def trailingZeros (word : Nat) : Nat := ((List.range 64).find? fun i => word.testBit i).getD 64

namespace EfReader

/-- Parse the header. -/
def new (data : List UInt8) : Except String EfReader := do
  if data.length < 13 then throw "corrupt postings: ef header truncated"
  let count ← readU32 data 0
  let l ← expect "index out of bounds" data[4]?
  let _last ← readU32 data 5
  let wordCount ← readU32 data 9
  if 31 < l.toNat ∨ count = 0 ∨ data.length < 13 + wordCount * 8 then
    throw "corrupt postings: ef header inconsistent"
  return ⟨data, 13, 13 + wordCount * 8, count, l.toNat, 0, [], 0, 0⟩

def word (r : EfReader) (wi : Nat) : Except String Nat :=
  readWord "corrupt postings: ef unary stream truncated" 8 r.data (r.wordsStart + wi * 8)

def readLow (r : EfReader) (index : Nat) : Except String Nat :=
  if r.l = 0 then .ok 0 else readBits (r.data.drop r.lowsStart) (index * r.l) r.l

/-- The word-wise scan for the next set bit: its position. -/
def scanLoop (r : EfReader) : Nat → Nat → Nat → Except String Nat
  | 0, _, _ => .error "out of fuel"
  | fuel + 1, w, bit => do
    let word ← r.word w
    let masked := if bit = 0 then word else word &&& ((2 ^ 64 - 1) - ((1 <<< bit) - 1))
    if masked ≠ 0 then return w * 64 + trailingZeros masked
    else r.scanLoop fuel (w + 1) 0

/-- The high part of posting `scanDone`; the scan then stands behind its
bit. -/
def scanOne (r : EfReader) : Except String (Nat × EfReader) := do
  let bitPos ← r.scanLoop (r.data.length + 1) (r.scanBit / 64) (r.scanBit % 64)
  return ((bitPos % 2 ^ 32 + 2 ^ 32 - r.scanDone) % 2 ^ 32, { r with scanBit := bitPos + 1 })

/-- Put a scanned high part into the window. -/
def pushHigh (r : EfReader) (high : Nat) : EfReader :=
  { r with highs := r.highs ++ [high], scanDone := (r.scanDone + 1) % 2 ^ 32 }

/-- Drop the window's head. -/
def dropHead (r : EfReader) : EfReader :=
  { r with highs := r.highs.tail, pos := (r.pos + 1) % 2 ^ 32 }

def bufferLoop : Nat → EfReader → Except String EfReader
  | 0, r => .ok r
  | rounds + 1, r => do
    if r.count ≤ r.scanDone then throw "corrupt postings: ef unary index out of range"
    let (high, r) ← r.scanOne
    bufferLoop rounds (r.pushHigh high)

/-- Scan until the window reaches an index. -/
def bufferThrough (r : EfReader) (index : Nat) : Except String EfReader :=
  bufferLoop (index + 1 - r.scanDone) r

/-- The docid of the window's head. -/
def headValue (r : EfReader) : Except String Nat := do
  let high ← expect "index out of bounds" r.highs.head?
  let low ← r.readLow r.pos
  return (high <<< r.l) % 2 ^ 32 ||| low

def peek (r : EfReader) : Except String (Option Nat × EfReader) := do
  if r.count ≤ r.pos then return (none, r)
  let r ← r.bufferThrough r.pos
  let value ← r.headValue
  return (some value, r)

def next (r : EfReader) : Except String (Option Nat × EfReader) := do
  let (value, r) ← r.peek
  if value.isSome then return (value, r.dropHead) else return (value, r)

/-- Discard postings whose high part is below the threshold; `true` when none
is left. -/
def discardLoop (threshold : Nat) : Nat → EfReader → Except String (Bool × EfReader)
  | 0, _ => .error "out of fuel"
  | fuel + 1, r => do
    if r.pos < r.scanDone then
      let high ← expect "index out of bounds" r.highs.head?
      if high < threshold then discardLoop threshold fuel r.dropHead else return (false, r)
    else if r.count ≤ r.scanDone then return (true, { r with pos := r.count })
    else
      let (high, r) ← r.scanOne
      let scanDone := (r.scanDone + 1) % 2 ^ 32
      if high < threshold then discardLoop threshold fuel { r with scanDone, pos := scanDone }
      else return (false, r.pushHigh high)

/-- Scan a high part into an empty window. -/
def ensureHead (r : EfReader) : Except String EfReader :=
  if r.pos = r.scanDone then do
    let (high, r) ← r.scanOne
    return r.pushHigh high
  else .ok r

/-- Materialize postings in order until one reaches the target. -/
def reachLoop (target : Nat) : Nat → EfReader → Except String (Option Nat × EfReader)
  | 0, _ => .error "out of fuel"
  | fuel + 1, r => do
    if r.pos = r.scanDone ∧ r.count ≤ r.scanDone then return (none, { r with pos := r.count })
    let r ← r.ensureHead
    let value ← r.headValue
    if target ≤ value then return (some value, r) else reachLoop target fuel r.dropHead

/-- Both loops pass a posting a round. -/
def advance (r : EfReader) (target : Nat) : Except String (Option Nat × EfReader) := do
  let (current, r) ← r.peek
  match current.filter (target ≤ ·) with
  | some current => return (some current, r)
  | none =>
    if r.count ≤ r.pos then return (none, r)
    let (done, r) ← discardLoop (target >>> r.l) (r.count - r.pos + 1) r
    if done then return (none, r) else reachLoop target (r.count - r.pos + 1) r

instance : PostingReader EfReader where
  len r := r.count
  pos r := r.pos
  peek := peek
  next := next
  advance := advance

end EfReader

end Gleaph.Postings
