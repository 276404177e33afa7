import Gleaph.Cmp

/-!
# Gleaph.IndexKey

Sortable property-index keys (`crates/gql/src/value_index_key.rs`): the
encoding of a value as bytes whose lexicographic order is the value order,
and the half-open key intervals that realize ordered comparisons.

The encoder pushes onto one output buffer; here each function returns the
bytes it pushes.  Errors surface in the order the source meets them: a
record's fields are encoded in name order.
-/

namespace Gleaph

inductive ValueIndexKeyError where
  | unsupportedValue
  | nonFiniteFloat
  /-- The value's domain has no contiguous ordered interval. -/
  | unsupportedRangeDomain
  deriving DecidableEq, Repr

/-! ## Tags and markers -/

def indexKeyBool : UInt8 := 1

def indexKeyNumeric : UInt8 := 2

def indexKeyText : UInt8 := 6

def indexKeyBytes : UInt8 := 7

def indexKeyTemporal : UInt8 := 8

def indexKeyList : UInt8 := 9

def indexKeyRecord : UInt8 := 10

def indexKeyExtension : UInt8 := 11

def indexKeyPath : UInt8 := 12

def pathKeyVertex : UInt8 := 1

def pathKeyEdge : UInt8 := 2

def itemMarker : UInt8 := 1

def endMarker : UInt8 := 0

/-! ## Leaf encodings -/

/-- A zero byte becomes `[0, 255]`. -/
def pushEscapedIndexPayload (bytes : List UInt8) : List UInt8 :=
  bytes.flatMap fun byte => if byte = 0 then [0, 255] else [byte]

def pushEscapedIndexBytes (bytes : List UInt8) : List UInt8 :=
  pushEscapedIndexPayload bytes ++ [0, 0]

def encodeSignedOrderI64 (value : BitVec 64) : List UInt8 :=
  beBytes 8 (value ^^^ BitVec.intMin 64).toNat

/-- Point position, digits and a closing zero byte. -/
def numericMagnitude (parts : NormalizedNumeric) : List UInt8 :=
  beBytes 4 (parts.pointPos ^^^ BitVec.intMin 32).toNat ++ parts.digits ++ [0]

/-- The bytes behind the numeric tag: a sign byte and the magnitude, each of
its bytes complemented when negative. -/
def numericKeyOfParts : Option NormalizedNumeric → List UInt8
  | none => [1]
  | some parts =>
    if parts.negative then 0 :: (numericMagnitude parts).map (~~~ ·)
    else 2 :: numericMagnitude parts

def indexKeyErrorFromNumeric : NumericOrderError → ValueIndexKeyError
  | .nonFiniteFloat => .nonFiniteFloat
  | .unsupportedValue => .unsupportedValue

variable {E : Type}

def encodeNumericKey (crates : Crates) (value : Value E) :
    Except ValueIndexKeyError (List UInt8) :=
  match normalizedNumericParts crates value with
  | .ok parts => .ok (numericKeyOfParts parts)
  | .error e => .error (indexKeyErrorFromNumeric e)

/-- UTC nanoseconds of a zoned time in `i64` arithmetic. -/
def zonedTimeKeyUtc (nanos : BitVec 64) (tzSeconds : BitVec 32) : Int :=
  (nanos - tzSeconds.signExtend 64 * 1_000_000_000#64).toInt % nanosPerDay

def encodePathElement : PathElement → List UInt8
  | .vertex id => pathKeyVertex :: pushEscapedIndexBytes id
  | .edge id => pathKeyEdge :: pushEscapedIndexBytes id

def encodePathKey (elements : List PathElement) : List UInt8 :=
  indexKeyPath :: elements.flatMap encodePathElement ++ [endMarker]

/-! ## Values -/

/-- The loop of `encode_record_key` over fields already in name order; the
values stand as their encodings. -/
def encodeSortedFields : List (String × Except ValueIndexKeyError (List UInt8)) →
    Except ValueIndexKeyError (List UInt8)
  | [] => .ok [endMarker]
  | (name, value) :: fields => do
    let key ← value
    let rest ← encodeSortedFields fields
    return itemMarker :: pushEscapedIndexBytes (asBytes name) ++ key ++ rest

variable [ExtensionValue E]

mutual

def encodeValueKey (crates : Crates) : Value E → Except ValueIndexKeyError (List UInt8)
  | .null => .ok [endMarker]
  | .bool value => .ok [indexKeyBool, if value then 1 else 0]
  | .int w value => (indexKeyNumeric :: ·) <$> encodeNumericKey crates (.int w value : Value E)
  | .uint w value => (indexKeyNumeric :: ·) <$> encodeNumericKey crates (.uint w value : Value E)
  | .float f value => (indexKeyNumeric :: ·) <$> encodeNumericKey crates (.float f value : Value E)
  | .decimal value => (indexKeyNumeric :: ·) <$> encodeNumericKey crates (.decimal value : Value E)
  | .text value => .ok (indexKeyText :: pushEscapedIndexBytes (asBytes value))
  | .bytes value => .ok (indexKeyBytes :: pushEscapedIndexBytes value)
  | .date days => .ok (indexKeyTemporal :: 1 :: encodeSignedOrderI64 (days.signExtend 64))
  | .time nanos => .ok (indexKeyTemporal :: 2 :: beBytes 8 nanos.toNat)
  | .localTime nanos => .ok (indexKeyTemporal :: 3 :: beBytes 8 nanos.toNat)
  | .dateTime seconds nanos =>
    .ok (indexKeyTemporal :: 4 :: encodeSignedOrderI64 seconds ++ beBytes 4 nanos.toNat)
  | .localDateTime seconds nanos =>
    .ok (indexKeyTemporal :: 5 :: encodeSignedOrderI64 seconds ++ beBytes 4 nanos.toNat)
  | .zonedDateTime seconds nanos _ =>
    .ok (indexKeyTemporal :: 6 :: encodeSignedOrderI64 seconds ++ beBytes 4 nanos.toNat)
  | .zonedTime nanos tzSeconds =>
    .ok (indexKeyTemporal :: 7 :: beBytes 8 (zonedTimeKeyUtc nanos tzSeconds).toNat)
  | .duration months nanos =>
    .ok (indexKeyTemporal :: 8 :: encodeSignedOrderI64 (months.signExtend 64) ++
      encodeSignedOrderI64 nanos)
  | .list values => (indexKeyList :: ·) <$> encodeListItems crates values
  | .record fields =>
    (indexKeyRecord :: ·) <$> encodeSortedFields (sortByName (encodeFields crates fields))
  | .path elements => .ok (encodePathKey elements)
  | .extension ext =>
    match ExtensionValue.sortableIndexKey ext with
    | none => .error .unsupportedValue
    | some key =>
      .ok (indexKeyExtension :: pushEscapedIndexBytes (asBytes key.1) ++
        pushEscapedIndexBytes key.2)

/-- The items of a list key, each behind a marker, and the end marker. -/
def encodeListItems (crates : Crates) : List (Value E) → Except ValueIndexKeyError (List UInt8)
  | [] => .ok [endMarker]
  | value :: values => do
    let key ← encodeValueKey crates value
    let rest ← encodeListItems crates values
    return itemMarker :: key ++ rest

/-- Each field with the encoding of its value. -/
def encodeFields (crates : Crates) :
    List (String × Value E) → List (String × Except ValueIndexKeyError (List UInt8))
  | [] => []
  | (name, value) :: fields => (name, encodeValueKey crates value) :: encodeFields crates fields

end

/-- The index key of a value; null has none. -/
def valueToIndexKeyBytes (crates : Crates) :
    Value E → Except ValueIndexKeyError (Option (List UInt8))
  | .null => .ok none
  | value => some <$> encodeValueKey crates value

/-! ## Ordered ranges -/

inductive CmpOp where
  | eq | ne | lt | le | gt | ge
  deriving DecidableEq, Repr

/-- The successor of the longest part that can be incremented; `none` when
every byte is 255.  The source scans from the end. -/
def lexSuccPrefix : List UInt8 → Option (List UInt8)
  | [] => none
  | byte :: bytes =>
    match lexSuccPrefix bytes with
    | some succ => some (byte :: succ)
    | none => if byte < 255 then some [byte + 1] else none

/-- Lexicographic successor: increment the last byte below 255 and cut there,
or append a zero byte. -/
def lexSuccBytes (bytes : List UInt8) : List UInt8 :=
  (lexSuccPrefix bytes).getD (bytes ++ [0])

/-- Floor and ceiling of the key's comparison domain, for the domains with a
contiguous ordered interval. -/
def comparisonDomainInterval : List UInt8 → Option (List UInt8 × List UInt8)
  | [] => none
  | tag :: rest =>
    if tag = indexKeyNumeric then some ([indexKeyNumeric], lexSuccBytes [indexKeyNumeric])
    else if tag = indexKeyText ∨ tag = indexKeyBytes then some ([tag], lexSuccBytes [tag])
    else if tag = indexKeyTemporal then
      match rest with
      | [] => none
      | subtype :: _ =>
        if 1 ≤ subtype ∧ subtype ≤ 7 then
          some ([indexKeyTemporal, subtype], lexSuccBytes [indexKeyTemporal, subtype])
        else none
    else none

/-- The successor of a bound, not past the ceiling. -/
def clampedSucc (ceiling bound : List UInt8) : List UInt8 :=
  if compare (lexSuccBytes bound) ceiling = .gt then ceiling else lexSuccBytes bound

/-- The one-sided cut of `op` within the bound key's comparison domain. -/
def oneSidedDomainInterval (boundKey : List UInt8) (op : CmpOp) :
    Except ValueIndexKeyError (List UInt8 × List UInt8) :=
  if op = .eq ∨ op = .ne then .error .unsupportedValue
  else
    match comparisonDomainInterval boundKey with
    | none => .error .unsupportedRangeDomain
    | some (floor, ceiling) =>
      match op with
      | .ge => .ok (boundKey, ceiling)
      | .gt => .ok (clampedSucc ceiling boundKey, ceiling)
      | .le => .ok (floor, clampedSucc ceiling boundKey)
      | _ => .ok (floor, boundKey)

def encodedRangeBoundKey (crates : Crates) (value : Value E) :
    Except ValueIndexKeyError (List UInt8) := do
  match ← valueToIndexKeyBytes crates value with
  | some key => return key
  | none => throw .unsupportedValue

/-- The half-open key interval of `property OP value`. -/
def rangeBounds (crates : Crates) (value : Value E) (op : CmpOp) :
    Except ValueIndexKeyError (List UInt8 × List UInt8) := do
  let boundKey ← encodedRangeBoundKey crates value
  oneSidedDomainInterval boundKey op

def rangeBoundsForEncodedKey (boundKey : List UInt8) (op : CmpOp) :
    Except ValueIndexKeyError (List UInt8 × List UInt8) :=
  if boundKey.isEmpty then .error .unsupportedRangeDomain
  else oneSidedDomainInterval boundKey op

/-! ## Text prefixes -/

/-- Above every byte that continues an escaped text. -/
def textPrefixExclusiveEnd : UInt8 := 255

/-- A text key ends in its terminator; anything shorter is no text key. -/
def textPrefixRangeBoundsForEncodedKey :
    List UInt8 → Except ValueIndexKeyError (List UInt8 × List UInt8)
  | [] => .error .unsupportedRangeDomain
  | tag :: payload =>
    if tag ≠ indexKeyText ∨ payload.length < 2 then .error .unsupportedRangeDomain
    else if payload = [endMarker, endMarker] then .ok ([indexKeyText], lexSuccBytes [indexKeyText])
    else
      let low := (tag :: payload).take ((tag :: payload).length - 2)
      .ok (low, low ++ [textPrefixExclusiveEnd])

/-- The half-open key interval of `property STARTS WITH pattern`. -/
def textPrefixRangeBounds (crates : Crates) (pattern : Value E) :
    Except ValueIndexKeyError (List UInt8 × List UInt8) := do
  match ← valueToIndexKeyBytes crates pattern with
  | none => throw .unsupportedValue
  | some boundKey => textPrefixRangeBoundsForEncodedKey boundKey

end Gleaph
