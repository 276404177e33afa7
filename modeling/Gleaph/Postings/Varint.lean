import Gleaph.Postings.Skip

/-!
# Gleaph.Postings.Varint

The two delta codecs: LEB128 docid deltas
(`crates/ic-stable-text-postings/src/enc/varint.rs`) and the same with one raw
frequency byte behind each delta (`enc/freq_varint.rs`).

The two readers of the source differ in the codec's name in their messages, in
the frequency byte and in `next_step`; here they are one reader over a
`DeltaCodec`.  A list without frequencies is read with frequency one.
-/

namespace Gleaph.Postings

/-- What distinguishes the two codecs. -/
structure DeltaCodec where
  name : String
  withTf : Bool

def varint : DeltaCodec := ⟨"varint", false⟩

def freqVarint : DeltaCodec := ⟨"freq varint", true⟩

/-! ## Encoding -/

/-- The shared precondition of the encoders. -/
def assertStrictlyIncreasing (docs : List Nat) : Except String Unit := do
  if docs.isEmpty then throw "postings must be non-empty"
  unless (docs.zip docs.tail).all fun w => w.1 < w.2 do
    throw "postings must be strictly increasing"

/-- Docids an encoder accepts, of a length that a slice of a 32-bit address
space can have. -/
structure DocList (docs : List Nat) : Prop where
  increasing : docs.Pairwise (· < ·)
  docid_lt : ∀ d ∈ docs, d < 2 ^ 32
  nonempty : 0 < docs.length
  length_lt : docs.length < 2 ^ 29

/-- Increasing docids pass the check of neighbours. -/
theorem all_lt_tail {docs : List Nat} (h : docs.Pairwise (· < ·)) :
    ((docs.zip docs.tail).all fun w => w.1 < w.2) = true := by
  induction docs with
  | nil => rfl
  | cons d docs ih =>
    cases docs with
    | nil => rfl
    | cons e docs =>
      have hlt : d < e := List.rel_of_pairwise_cons h (by simp)
      simpa [hlt] using ih h.of_cons

/-- So the writer's assertion does not fail on them. -/
theorem assertStrictlyIncreasing_eq {docs : List Nat} (hne : 0 < docs.length)
    (h : docs.Pairwise (· < ·)) : assertStrictlyIncreasing docs = .ok () := by
  have hempty : docs.isEmpty = false := by
    rw [List.isEmpty_eq_false_iff]
    exact List.ne_nil_of_length_pos hne
  simp [assertStrictlyIncreasing, hempty, all_lt_tail h]

/-- Nor on a list of postings. -/
theorem DocList.assertStrictlyIncreasing (h : DocList docs) :
    assertStrictlyIncreasing docs = .ok () :=
  assertStrictlyIncreasing_eq h.nonempty h.increasing

/-- Later postings have greater docids. -/
theorem DocList.lt_of_getElem? (h : DocList docs) {i j d e : Nat} (hij : i < j)
    (hd : docs[i]? = some d) (he : docs[j]? = some e) : d < e := by
  obtain ⟨hi, rfl⟩ := List.getElem?_eq_some_iff.mp hd
  obtain ⟨hj, rfl⟩ := List.getElem?_eq_some_iff.mp he
  exact List.pairwise_iff_getElem.mp h.increasing i j hi hj hij

/-- LEB128: seven bits a byte, low group first. -/
def writeU32 (value : Nat) : List UInt8 :=
  let group := value &&& 0x7F
  if value >>> 7 = 0 then [UInt8.ofNat group]
  else UInt8.ofNat (group ||| 0x80) :: writeU32 (value >>> 7)
termination_by value
decreasing_by
  rw [Nat.shiftRight_eq_div_pow] at *
  omega

/-- One posting on the wire. -/
def DeltaCodec.step (c : DeltaCodec) (delta tf : Nat) : List UInt8 :=
  writeU32 delta ++ if c.withTf then [UInt8.ofNat (min tf 255)] else []

def encodeLoop (c : DeltaCodec) :
    Nat → Nat → List UInt8 → SkipBuilder → List Posting → List UInt8 × SkipBuilder
  | _, _, out, skips, [] => (out, skips)
  | i, prev, out, skips, (doc, tf) :: rest =>
    let skips := skips.posting (i % 2 ^ 32) out.length doc
    let delta := if i = 0 then doc else doc - prev
    encodeLoop c (i + 1) doc (out ++ c.step delta tf) skips rest

/-- Count, postings and skip trailer. -/
def encodePostings (c : DeltaCodec) (postings : List Posting) : List UInt8 :=
  let (out, skips) := encodeLoop c 0 0 (leBytes 4 (postings.length % 2 ^ 32)) SkipBuilder.new postings
  out ++ skips.finish c.withTf

def encodeVarint (docs : List Nat) : Except String (List UInt8) := do
  assertStrictlyIncreasing docs
  return encodePostings varint (single docs)

def encodeFreqVarint (docs tfs : List Nat) : Except String (List UInt8) := do
  assertStrictlyIncreasing docs
  unless docs.length = tfs.length do throw "tf list must align with postings"
  return encodePostings freqVarint (docs.zip tfs)

/-! ## Reading -/

structure DeltaReader (c : DeltaCodec) where
  data : List UInt8
  count : Nat
  /-- Offset of the next byte to decode. -/
  bytePos : Nat
  /-- Offset where the payload ends and the trailer starts. -/
  payloadEnd : Nat
  pos : Nat
  /-- Last decoded docid. -/
  prev : Nat
  current : Option Posting
  skip : SkipIndex

abbrev VarintReader := DeltaReader varint

abbrev FreqVarintReader := DeltaReader freqVarint

namespace DeltaReader

/-- Parse header and trailer; postings are decoded lazily. -/
def new (c : DeltaCodec) (data : List UInt8) : Except String (DeltaReader c) := do
  if data.length < 4 then throw s!"corrupt postings: {c.name} header truncated"
  let count := leValue (data.take 4)
  let (skip, payloadEnd) ← SkipIndex.parse data count (entryWidth c.withTf) c.withTf c.name
  return ⟨data, count, 4, payloadEnd, 0, 0, none, skip⟩

/-- The decoding loop over bytes: value and offset behind it.  Five groups
fill 32 bits, so the fuel is never what ends it. -/
def decodeLoop (r : DeltaReader c) : Nat → Nat → Nat → Nat → Except String (Nat × Nat)
  | 0, _, _, _ => .error s!"corrupt postings: {c.name} exceeds 32 bits"
  | fuel + 1, shift, result, bytePos => do
    if r.payloadEnd ≤ bytePos then throw s!"corrupt postings: {c.name} stream truncated"
    let byte ← expect s!"corrupt postings: {c.name} stream truncated" r.data[bytePos]?
    if shift = 28 ∧ 0x0F < byte.toNat then
      throw s!"corrupt postings: {c.name} exceeds 32 bits"
    let result := result ||| (((byte.toNat &&& 0x7F) <<< shift) % 2 ^ 32)
    if byte.toNat &&& 0x80 = 0 then return (result, bytePos + 1)
    if 32 ≤ shift + 7 then throw s!"corrupt postings: {c.name} exceeds 32 bits"
    r.decodeLoop fuel (shift + 7) result (bytePos + 1)

section

variable (r : DeltaReader c)

def decodeDelta : Except String (Nat × Nat) := r.decodeLoop 5 0 0 r.bytePos

/-- The docid a delta leads to. -/
def accumulate (delta : Nat) : Except String Nat :=
  if r.pos = 0 then .ok delta
  else if r.prev + delta < 2 ^ 32 then .ok (r.prev + delta)
  else .error s!"corrupt postings: {c.name} delta overflow"

/-- Decode one posting. -/
def decodeStep : Except String (DeltaReader c) := do
  let (delta, bytePos) ← r.decodeDelta
  let value ← r.accumulate delta
  if c.withTf then
    let tf ← expect s!"corrupt postings: {c.name} tf byte missing" r.data[bytePos]?
    if r.payloadEnd ≤ bytePos then throw s!"corrupt postings: {c.name} tf byte missing"
    return { r with bytePos := bytePos + 1, prev := value, current := some (value, tf.toNat) }
  else return { r with bytePos, prev := value, current := some (value, 1) }

def fillCurrent : Except String (DeltaReader c) :=
  if r.current.isNone ∧ r.pos < r.count then r.decodeStep else .ok r

/-- Jump to the block the skip index lands on, if that is ahead. -/
def jumpToward (target : Nat) : Except String (DeltaReader c) := do
  if r.skip.isEmpty then return r
  match ← r.skip.jumpLanding r.data target r.bytePos with
  | none => return r
  | some (offset, posBefore, prev) =>
    return { r with bytePos := offset, pos := posBefore, prev, current := none }

def peek : Except String (Option Nat × DeltaReader c) := do
  let r ← r.fillCurrent
  return (r.current.map Prod.fst, r)

/-- Give up the current posting. -/
def consume : DeltaReader c :=
  { r with current := none, pos := (r.pos + 1) % 2 ^ 32 }

def next : Except String (Option Nat × DeltaReader c) := do
  let (value, r) ← r.peek
  if value.isSome then return (value, r.consume) else return (value, r)

end

def advanceLoop (target : Nat) :
    Nat → DeltaReader c → Except String (Option Nat × DeltaReader c)
  | 0, _ => .error "out of fuel"
  | fuel + 1, r => do
    let (value, r) ← r.peek
    match value with
    | none => return (none, r)
    | some v =>
      if target ≤ v then return (some v, r)
      let (_, r) ← r.next
      advanceLoop target fuel r

/-- The loop takes one posting a round, so the postings left are fuel
enough. -/
def advance (r : DeltaReader c) (target : Nat) : Except String (Option Nat × DeltaReader c) := do
  let (value, r) ← r.peek
  match value with
  | none => return (none, r)
  | some v =>
    if target ≤ v then return (some v, r)
    let r ← r.jumpToward target
    advanceLoop target (r.count - r.pos + 1) r

def tf (r : DeltaReader c) : Except String (Option Nat × DeltaReader c) := do
  if c.withTf then
    let r ← r.fillCurrent
    return (r.current.map Prod.snd, r)
  else
    let (docid, r) ← r.peek
    return (docid.map fun _ => 1, r)

def nextStep (r : DeltaReader c) : Except String (Option (Nat × Nat) × DeltaReader c) := do
  if c.withTf then
    let r ← r.fillCurrent
    match r.current with
    | none => return (none, r)
    | some step => return (some step, r.consume)
  else
    let (docid, r) ← r.next
    return (docid.map fun docid => (docid, 1), r)

instance : PostingReader (DeltaReader c) where
  len r := r.count
  pos r := r.pos
  peek := peek
  next := next
  advance := advance
  tf := tf
  nextStep := nextStep

end DeltaReader

end Gleaph.Postings
