import Gleaph.ByteReader
import Gleaph.Value

/-!
# Gleaph.Value.Binary

The tagged byte format of values: `Value::to_binary_bytes` and
`Value::from_binary_bytes_with_extensions` (`crates/gql-value/src/impls.rs`).

The decoder stops with `NestingTooDeep` at a value that stands inside 64 lists
and records; the encoder has no such limit.  `decodeBinaryFrom` therefore
counts down the levels that are left, where the source counts up to
`MAX_BINARY_NESTING_DEPTH`.

`encodeBinary_reads` is the round trip one value at a time: what the encoder
writes, the decoder reads back as the same value, given as many levels as the
value has (`Value.levels`).
-/

namespace Gleaph

open List

/-- `ValueBinaryError`, as far as the codec itself raises it. -/
inductive ValueBinaryError where
  | unexpectedEof
  | invalidTag (tag : UInt8)
  | invalidUtf8
  | invalidExtensionType
  | unknownEncodedExtension
  | invalidExtensionPayload
  | nestingTooDeep
  deriving DecidableEq, Repr

/-! ## Extension hooks -/

/-- The encoding hooks of `dyn ExtensionValue`. -/
class ExtensionBinary (E : Type) where
  shortBlob : E → Option (List UInt8)
  compactKind : E → Option UInt8
  binaryPayload : E → Except ValueBinaryError (List UInt8)

/-- `dyn ExtensionBinaryDecode`. -/
structure ExtensionBinaryDecode (E : Type) where
  decodeExtensionCompact : UInt8 → List UInt8 → Except ValueBinaryError E
  decodeExtensionShortBlob : List UInt8 → Except ValueBinaryError E

/-- `DenyExtensionBinaryDecode`: the hooks of `from_binary_bytes`. -/
def ExtensionBinaryDecode.deny (E : Type) : ExtensionBinaryDecode E where
  decodeExtensionCompact _ _ := .error .unknownEncodedExtension
  decodeExtensionShortBlob _ := .error .unknownEncodedExtension

/-- The decoding hooks undo the encoding hooks. -/
structure ExtensionBinaryDecode.Inverts {E : Type} [ExtensionBinary E]
    (decode : ExtensionBinaryDecode E) : Prop where
  shortBlob : ∀ {e : E} {blob}, ExtensionBinary.shortBlob e = some blob →
    decode.decodeExtensionShortBlob blob = .ok e
  compact : ∀ {e : E} {kind payload}, ExtensionBinary.shortBlob e = none →
    ExtensionBinary.compactKind e = some kind → ExtensionBinary.binaryPayload e = .ok payload →
      decode.decodeExtensionCompact kind payload = .ok e

instance : ExtensionBinary Empty where
  shortBlob := nofun
  compactKind := nofun
  binaryPayload := nofun

theorem ExtensionBinaryDecode.deny_inverts : (ExtensionBinaryDecode.deny Empty).Inverts where
  shortBlob {e} := e.elim
  compact {e} := e.elim

/-- `rust_decimal`'s 16-byte form: `Decimal::serialize` and `Decimal::deserialize`. -/
structure DecimalBytes where
  serialize : Decimal → List UInt8
  deserialize : List UInt8 → Decimal
  length_serialize : ∀ d, (serialize d).length = 16
  deserialize_serialize : ∀ d, deserialize (serialize d) = d

/-- A stand-in for `rust_decimal`'s bytes: the magnitude in twelve bytes, then
scale and sign. -/
def DecimalBytes.plain : DecimalBytes where
  serialize d := leBytes 12 d.mantissa.natAbs ++
    [UInt8.ofNat d.scale, if d.mantissa < 0 then 1 else 0, 0, 0]
  deserialize bytes :=
    ⟨if bytes.getD 13 0 = 1 then -((leValue (bytes.take 12) % 2 ^ 96 : Nat) : Int)
      else (leValue (bytes.take 12) % 2 ^ 96 : Nat),
      min (bytes.getD 12 0).toNat 28,
      by
        have := Nat.mod_lt (leValue (bytes.take 12)) (show 0 < 2 ^ 96 by decide)
        split <;> omega,
      by omega⟩
  length_serialize d := by simp
  deserialize_serialize d := by
    have hscale : (UInt8.ofNat d.scale).toNat = d.scale := by
      rw [UInt8.toNat_ofNat', Nat.mod_eq_of_lt]
      have := d.scale_le
      omega
    have hvalue : leValue (leBytes 12 d.mantissa.natAbs) % 2 ^ 96 = d.mantissa.natAbs := by
      rw [leValue_leBytes, show 256 ^ 12 = 2 ^ 96 from rfl, Nat.mod_mod, Nat.mod_eq_of_lt d.mantissa_lt]
    obtain ⟨m, scale, hm, hle⟩ := d
    rw [Decimal.mk.injEq]
    constructor
    · rw [take_left' (length_leBytes _ _), hvalue,
        getD_append_right _ _ _ _ (by simp), length_leBytes]
      simp only [Nat.reduceSub, getD_cons_succ, getD_cons_zero]
      by_cases hneg : m < 0
      · rw [if_pos hneg, if_pos rfl]
        omega
      · rw [if_neg hneg, if_neg (by decide)]
        omega
    · rw [getD_append_right _ _ _ _ (by simp), length_leBytes]
      simp only [Nat.sub_self, getD_cons_zero, hscale]
      omega

namespace Binary

/-! ## Tags -/

def signedTag : IntWidth → UInt8
  | .w8 => 2
  | .w16 => 3
  | .w32 => 4
  | .w64 => 5
  | .w128 => 6
  | .w256 => 7

def unsignedTag : IntWidth → UInt8
  | .w8 => 8
  | .w16 => 9
  | .w32 => 10
  | .w64 => 11
  | .w128 => 12
  | .w256 => 13

def floatTag : FloatFormat → UInt8
  | .f16 => 14
  | .f32 => 15
  | .f64 => 16
  | .f128 => 31
  | .f256 => 32

/-! ## Encoding -/

/-- A fixed-width field (`to_le_bytes`). -/
def fieldBytes {w : Nat} (v : BitVec w) : List UInt8 := leBytes (w / 8) v.toNat

/-- The cast to `u32` drops what does not fit. -/
def writeLen (len : Nat) : List UInt8 := leBytes 4 len

def writeLenPrefixedBytes (bytes : List UInt8) : List UInt8 := writeLen bytes.length ++ bytes

def encodePathElement : PathElement → List UInt8
  | .vertex id => 0 :: writeLenPrefixedBytes id
  | .edge id => 1 :: writeLenPrefixedBytes id

section Encode

variable {E : Type} [ExtensionBinary E]

def encodeExtension (e : E) : Except ValueBinaryError (List UInt8) :=
  match ExtensionBinary.shortBlob e with
  | some blob =>
    if blob.length > 255 then .error .invalidExtensionPayload
    else .ok (34 :: UInt8.ofNat blob.length :: blob)
  | none =>
    match ExtensionBinary.compactKind e with
    | some kind => do
      let payload ← ExtensionBinary.binaryPayload e
      return 33 :: kind :: writeLenPrefixedBytes payload
    | none => .error .invalidExtensionType

mutual

/-- `encode_binary_into`: the bytes it pushes. -/
def encodeBinary (decimals : DecimalBytes) : Value E → Except ValueBinaryError (List UInt8)
  | .null => .ok [0]
  | .bool v => .ok [1, if v then 1 else 0]
  | .int w v => .ok (signedTag w :: fieldBytes v)
  | .uint w v => .ok (unsignedTag w :: fieldBytes v)
  | .float f v => .ok (floatTag f :: fieldBytes v)
  | .decimal v => .ok (17 :: decimals.serialize v)
  | .text v => .ok (18 :: writeLenPrefixedBytes (asBytes v))
  | .bytes v => .ok (19 :: writeLenPrefixedBytes v)
  | .date v => .ok (20 :: fieldBytes v)
  | .time v => .ok (21 :: fieldBytes v)
  | .localTime v => .ok (22 :: fieldBytes v)
  | .dateTime s n => .ok (23 :: (fieldBytes s ++ fieldBytes n))
  | .localDateTime s n => .ok (24 :: (fieldBytes s ++ fieldBytes n))
  | .zonedDateTime s n tz => .ok (25 :: (fieldBytes s ++ (fieldBytes n ++ fieldBytes tz)))
  | .zonedTime n tz => .ok (26 :: (fieldBytes n ++ fieldBytes tz))
  | .duration m n => .ok (27 :: (fieldBytes m ++ fieldBytes n))
  | .list items => do
    let body ← encodeItems decimals items
    return 28 :: (writeLen items.length ++ body)
  | .path items => .ok (29 :: (writeLen items.length ++ items.flatMap encodePathElement))
  | .record fields => do
    let body ← encodeFields decimals fields
    return 30 :: (writeLen fields.length ++ body)
  | .extension e => encodeExtension e

def encodeItems (decimals : DecimalBytes) :
    List (Value E) → Except ValueBinaryError (List UInt8)
  | [] => .ok []
  | item :: items => do
    let head ← encodeBinary decimals item
    let rest ← encodeItems decimals items
    return head ++ rest

def encodeFields (decimals : DecimalBytes) :
    List (String × Value E) → Except ValueBinaryError (List UInt8)
  | [] => .ok []
  | (key, value) :: fields => do
    let head ← encodeBinary decimals value
    let rest ← encodeFields decimals fields
    return writeLenPrefixedBytes (asBytes key) ++ (head ++ rest)

end

def toBinaryBytes (decimals : DecimalBytes) (v : Value E) :
    Except ValueBinaryError (List UInt8) :=
  encodeBinary decimals v

end Encode

/-! ## Decoding -/

def maxBinaryNestingDepth : Nat := 64

section Decode

abbrev ValueReader := ByteReader ValueBinaryError

def readU8 : ValueReader UInt8 := ByteReader.byte .unexpectedEof

/-- `read_array` and `read_exact_slice`. -/
def readSlice (n : Nat) : ValueReader (List UInt8) := ByteReader.take .unexpectedEof n

/-- `from_le_bytes(cursor.read_array()?)` -/
def readField (w : Nat) : ValueReader (BitVec w) := do
  let bytes ← readSlice (w / 8)
  return BitVec.ofNat w (leValue bytes)

def readLen : ValueReader Nat := do
  let bytes ← readSlice 4
  return leValue bytes

def readLenPrefixedBytes : ValueReader (List UInt8) := do
  let len ← readLen
  readSlice len

/-- `str::from_utf8` -/
def utf8Text (bytes : List UInt8) : Except ValueBinaryError String :=
  match String.fromUTF8? ⟨bytes.toArray⟩ with
  | some s => .ok s
  | none => .error .invalidUtf8

def readString : ValueReader String := do
  let bytes ← readLenPrefixedBytes
  ByteReader.lift (utf8Text bytes)

def readPathElement : ValueReader PathElement := do
  let tag ← readU8
  match tag with
  | 0 => do
    let id ← readLenPrefixedBytes
    return .vertex id
  | 1 => do
    let id ← readLenPrefixedBytes
    return .edge id
  | other => ByteReader.fail (.invalidTag other)

variable {E : Type}

/-- The scalar with a given tag; tags of nested values are not here. -/
def decodeScalar (decimals : DecimalBytes) (decode : ExtensionBinaryDecode E) :
    UInt8 → ValueReader (Value E)
  | 0 => return .null
  | 1 => do
    let b ← readU8
    return .bool (b != 0)
  | 2 => do
    let v ← readField 8
    return .int .w8 v
  | 3 => do
    let v ← readField 16
    return .int .w16 v
  | 4 => do
    let v ← readField 32
    return .int .w32 v
  | 5 => do
    let v ← readField 64
    return .int .w64 v
  | 6 => do
    let v ← readField 128
    return .int .w128 v
  | 7 => do
    let v ← readField 256
    return .int .w256 v
  | 8 => do
    let v ← readField 8
    return .uint .w8 v
  | 9 => do
    let v ← readField 16
    return .uint .w16 v
  | 10 => do
    let v ← readField 32
    return .uint .w32 v
  | 11 => do
    let v ← readField 64
    return .uint .w64 v
  | 12 => do
    let v ← readField 128
    return .uint .w128 v
  | 13 => do
    let v ← readField 256
    return .uint .w256 v
  | 14 => do
    let v ← readField 16
    return .float .f16 v
  | 15 => do
    let v ← readField 32
    return .float .f32 v
  | 16 => do
    let v ← readField 64
    return .float .f64 v
  | 17 => do
    let bytes ← readSlice 16
    return .decimal (decimals.deserialize bytes)
  | 18 => do
    let v ← readString
    return .text v
  | 19 => do
    let v ← readLenPrefixedBytes
    return .bytes v
  | 20 => do
    let v ← readField 32
    return .date v
  | 21 => do
    let v ← readField 64
    return .time v
  | 22 => do
    let v ← readField 64
    return .localTime v
  | 23 => do
    let s ← readField 64
    let n ← readField 32
    return .dateTime s n
  | 24 => do
    let s ← readField 64
    let n ← readField 32
    return .localDateTime s n
  | 25 => do
    let s ← readField 64
    let n ← readField 32
    let tz ← readField 32
    return .zonedDateTime s n tz
  | 26 => do
    let n ← readField 64
    let tz ← readField 32
    return .zonedTime n tz
  | 27 => do
    let m ← readField 32
    let n ← readField 64
    return .duration m n
  | 29 => do
    let len ← readLen
    let items ← ByteReader.repeated readPathElement len
    return .path items
  | 31 => do
    let v ← readField 128
    return .float .f128 v
  | 32 => do
    let v ← readField 256
    return .float .f256 v
  | 33 => do
    let kind ← readU8
    let payload ← readLenPrefixedBytes
    let ext ← ByteReader.lift (decode.decodeExtensionCompact kind payload)
    return .extension ext
  | 34 => do
    let len ← readU8
    let slice ← readSlice len.toNat
    let ext ← ByteReader.lift (decode.decodeExtensionShortBlob slice)
    return .extension ext
  | tag => ByteReader.fail (.invalidTag tag)

/-- `decode_binary_from`, with the number of levels that are left:
`MAX_BINARY_NESTING_DEPTH` less the source's `depth`. -/
def decodeBinaryFrom (decimals : DecimalBytes) (decode : ExtensionBinaryDecode E) :
    Nat → ValueReader (Value E)
  | 0 => ByteReader.fail .nestingTooDeep
  | levels + 1 => do
    let tag ← readU8
    match tag with
    | 28 => do
      let len ← readLen
      let items ← ByteReader.repeated (decodeBinaryFrom decimals decode levels) len
      return .list items
    | 30 => do
      let len ← readLen
      let fields ← ByteReader.repeated (do
        let key ← readString
        let value ← decodeBinaryFrom decimals decode levels
        return (key, value)) len
      return .record fields
    | tag => decodeScalar decimals decode tag

/-- All bytes must be used. -/
def fromBinaryBytesWithExtensions (decimals : DecimalBytes) (decode : ExtensionBinaryDecode E)
    (bytes : List UInt8) : Except ValueBinaryError (Value E) := do
  let (value, rest) ← decodeBinaryFrom decimals decode maxBinaryNestingDepth bytes
  match rest with
  | [] => return value
  | b :: _ => .error (.invalidTag b)

def fromBinaryBytes (decimals : DecimalBytes) (bytes : List UInt8) :
    Except ValueBinaryError (Value E) :=
  fromBinaryBytesWithExtensions decimals (.deny E) bytes

end Decode

/-! ## What a value asks of the decoder -/

section Levels

variable {E : Type}

mutual

/-- Levels of lists and records, the value itself included. -/
def levels : Value E → Nat
  | .list items => levelsOfItems items + 1
  | .record fields => levelsOfFields fields + 1
  | _ => 1

def levelsOfItems : List (Value E) → Nat
  | [] => 0
  | item :: items => max (levels item) (levelsOfItems items)

def levelsOfFields : List (String × Value E) → Nat
  | [] => 0
  | (_, value) :: fields => max (levels value) (levelsOfFields fields)

end

variable [ExtensionBinary E]

/-- The length of a path element's id. -/
def idLength : PathElement → Nat
  | .vertex id => id.length
  | .edge id => id.length

/-- The length of an extension's payload. -/
def extensionLengths (e : E) : List Nat :=
  match ExtensionBinary.binaryPayload e with
  | .ok payload => [payload.length]
  | .error _ => []

mutual

/-- Every length the encoder writes in four bytes. -/
def lengths : Value E → List Nat
  | .text v => [(asBytes v).length]
  | .bytes v => [v.length]
  | .list items => items.length :: lengthsOfItems items
  | .path items => items.length :: items.map idLength
  | .record fields => fields.length :: lengthsOfFields fields
  | .extension e => extensionLengths e
  | _ => []

def lengthsOfItems : List (Value E) → List Nat
  | [] => []
  | item :: items => lengths item ++ lengthsOfItems items

def lengthsOfFields : List (String × Value E) → List Nat
  | [] => []
  | (key, value) :: fields => (asBytes key).length :: (lengths value ++ lengthsOfFields fields)

end

/-- All lengths in the value fit the four bytes they are written in. -/
def LengthsFit (v : Value E) : Prop := ∀ n ∈ lengths v, n < 2 ^ 32

instance (v : Value E) : Decidable (LengthsFit v) := inferInstanceAs (Decidable (∀ _ ∈ _, _))

end Levels

/-! ## Reading single fields back -/

open ByteReader

/-- A fixed-width field is read back. -/
theorem reads_field (hw : 8 * (w / 8) = w) (v : BitVec w) :
    Reads (readField w) (fieldBytes v) v := by
  have hvalue : BitVec.ofNat w (leValue (fieldBytes v)) = v := by
    have hpow : 256 ^ (w / 8) = 2 ^ w := by
      rw [show (256 : Nat) = 2 ^ 8 from rfl, ← Nat.pow_mul, hw]
    rw [fieldBytes, leValue_leBytes, hpow, Nat.mod_eq_of_lt v.isLt, BitVec.ofNat_toNat,
      BitVec.setWidth_eq]
  have htake : Reads (readSlice (w / 8)) (fieldBytes v) (fieldBytes v) := by
    have h := Reads.take ValueBinaryError.unexpectedEof (fieldBytes v)
    rwa [show (fieldBytes v).length = w / 8 from length_leBytes _ _] at h
  have h := htake.map fun bytes => BitVec.ofNat w (leValue bytes)
  rwa [hvalue] at h

/-- So is a length that fits `u32`. -/
theorem reads_len (hn : n < 2 ^ 32) : Reads readLen (writeLen n) n := by
  have htake : Reads (readSlice 4) (writeLen n) (writeLen n) := by
    have h := Reads.take ValueBinaryError.unexpectedEof (writeLen n)
    rwa [show (writeLen n).length = 4 from length_leBytes _ _] at h
  have h := htake.map leValue
  rwa [writeLen, leValue_leBytes, show n % 256 ^ 4 = n from Nat.mod_eq_of_lt hn] at h

/-- So are bytes behind their length. -/
theorem reads_lenPrefixedBytes (h : bytes.length < 2 ^ 32) :
    Reads readLenPrefixedBytes (writeLenPrefixedBytes bytes) bytes :=
  (reads_len h).bind (Reads.take _ bytes)

/-- The bytes of a text are UTF-8 of that text. -/
theorem utf8Text_asBytes (s : String) : utf8Text (asBytes s) = .ok s := by
  have hbytes : (⟨(asBytes s).toArray⟩ : ByteArray) = s.toByteArray := by
    simp [asBytes, String.toUTF8]
  have hsome : String.fromUTF8? ⟨(asBytes s).toArray⟩ = some s := by
    rw [hbytes, String.fromUTF8?, dif_pos s.isValidUTF8]
    rfl
  rw [utf8Text, hsome]

/-- So is a text. -/
theorem reads_string (h : (asBytes s).length < 2 ^ 32) :
    Reads readString (writeLenPrefixedBytes (asBytes s)) s := by
  have htext : Reads (ByteReader.lift (utf8Text (asBytes s))) [] s := by
    rw [utf8Text_asBytes]
    exact Reads.lift s
  exact (reads_lenPrefixedBytes h).bind_last htext

/-- So is an element of a path. -/
theorem reads_pathElement (h : idLength e < 2 ^ 32) :
    Reads readPathElement (encodePathElement e) e := by
  cases e with
  | vertex id =>
    exact (Reads.byte _ (0 : UInt8)).bind ((reads_lenPrefixedBytes h).map PathElement.vertex)
  | edge id =>
    exact (Reads.byte _ (1 : UInt8)).bind ((reads_lenPrefixedBytes h).map PathElement.edge)

/-! ## Reading values back -/

section RoundTrip

variable {E : Type} {decimals : DecimalBytes} {decode : ExtensionBinaryDecode E}

variable {bytes : List UInt8} {n : Nat} {items : List (Value E)} {fields : List (String × Value E)}

/-- A scalar written as its tag and a body that the tag's reader reads back. -/
theorem reads_tagged (henc : (.ok (tag :: body) : Except ValueBinaryError _) = .ok bytes)
    (htag : tag ≠ 28 ∧ tag ≠ 30) (h : Reads (decodeScalar decimals decode tag) body v) :
    Reads (decodeBinaryFrom decimals decode (n + 1)) bytes v := by
  cases henc
  show Reads _ ([tag] ++ body) v
  refine (Reads.byte ValueBinaryError.unexpectedEof tag).bind ?_
  split
  · exact absurd rfl htag.1
  · exact absurd rfl htag.2
  · exact h

variable [ExtensionBinary E]

/-- So is an extension value, if its type's decoder inverts its encoder. -/
theorem reads_extension (hdecode : decode.Inverts) (henc : encodeExtension e = .ok bytes)
    (hfit : LengthsFit (.extension e)) :
    Reads (decodeBinaryFrom decimals decode (n + 1)) bytes (.extension e) := by
  unfold encodeExtension at henc
  split at henc
  next blob hblob =>
    split at henc
    · cases henc
    next hlen =>
      have hsize : (UInt8.ofNat blob.length).toNat = blob.length := by
        rw [UInt8.toNat_ofNat', Nat.mod_eq_of_lt]
        omega
      refine reads_tagged henc (by decide) ?_
      show Reads _ ([UInt8.ofNat blob.length] ++ blob) _
      refine (Reads.byte _ (UInt8.ofNat blob.length)).bind ?_
      rw [hsize]
      have hext : Reads (lift (decode.decodeExtensionShortBlob blob)) [] e := by
        rw [hdecode.shortBlob hblob]
        exact Reads.lift e
      exact (Reads.take _ blob).bind_last (hext.map Value.extension)
  next hblob =>
    split at henc
    next kind hkind =>
      obtain ⟨payload, hpayload, henc⟩ := bind_inv henc
      have hlen : payload.length < 2 ^ 32 :=
        hfit _ (by simp [lengths, extensionLengths, hpayload])
      refine reads_tagged henc (by decide) ?_
      show Reads _ ([kind] ++ writeLenPrefixedBytes payload) _
      refine (Reads.byte _ kind).bind ?_
      have hext : Reads (lift (decode.decodeExtensionCompact kind payload)) [] e := by
        rw [hdecode.compact hblob hkind hpayload]
        exact Reads.lift e
      exact (reads_lenPrefixedBytes hlen).bind_last (hext.map Value.extension)
    · cases henc

/-- A run of items, each read back by `r`. -/
theorem reads_items
    (h : ∀ item ∈ items, ∀ bytes, encodeBinary decimals item = .ok bytes → Reads r bytes item)
    (henc : encodeItems decimals items = .ok body) :
    Reads (repeated r items.length) body items := by
  induction items generalizing body with
  | nil =>
    cases henc
    exact Reads.pure []
  | cons item items ih =>
    rw [encodeItems] at henc
    obtain ⟨head, hhead, henc⟩ := bind_inv henc
    obtain ⟨rest, hrest, henc⟩ := bind_inv henc
    cases henc
    exact (h item (by simp) head hhead).repeated_cons (ih (fun i hi => h i (by simp [hi])) hrest)

/-- A run of fields: each name, then its value read back by `r`. -/
theorem reads_fields
    (h : ∀ f ∈ fields, ∀ bytes, encodeBinary decimals f.2 = .ok bytes → Reads r bytes f.2)
    (hnames : ∀ f ∈ fields, (asBytes f.1).length < 2 ^ 32)
    (henc : encodeFields decimals fields = .ok body) :
    Reads (repeated (do
      let key ← readString
      let value ← r
      return (key, value)) fields.length) body fields := by
  induction fields generalizing body with
  | nil =>
    cases henc
    exact Reads.pure []
  | cons field fields ih =>
    obtain ⟨key, value⟩ := field
    rw [encodeFields] at henc
    obtain ⟨head, hhead, henc⟩ := bind_inv henc
    obtain ⟨rest, hrest, henc⟩ := bind_inv henc
    cases henc
    rw [← append_assoc]
    have hkey : Reads readString (writeLenPrefixedBytes (asBytes key)) key :=
      reads_string (hnames (key, value) (by simp))
    have hvalue : Reads r head value := h (key, value) (by simp) head hhead
    exact (hkey.bind (hvalue.map (key, ·))).repeated_cons
      (ih (fun f hf => h f (by simp [hf])) (fun f hf => hnames f (by simp [hf])) hrest)

omit [ExtensionBinary E] in
theorem levels_pos (v : Value E) : 0 < levels v := by
  rw [levels.eq_def]
  split <;> omega

omit [ExtensionBinary E] in
/-- An item is no deeper than its list's items. -/
theorem levels_le_of_mem_items (h : item ∈ items) : levels item ≤ levelsOfItems items := by
  induction items with
  | nil => cases h
  | cons head items ih =>
    rw [levelsOfItems]
    rcases mem_cons.mp h with rfl | h
    · exact le_max_left _ _
    · exact (ih h).trans (le_max_right _ _)

omit [ExtensionBinary E] in
theorem levels_le_of_mem_fields (h : f ∈ fields) : levels f.2 ≤ levelsOfFields fields := by
  induction fields with
  | nil => cases h
  | cons head fields ih =>
    rw [levelsOfFields]
    rcases mem_cons.mp h with rfl | h
    · exact le_max_left _ _
    · exact (ih h).trans (le_max_right _ _)

/-- The lengths written for an item are among those for the list. -/
theorem mem_lengthsOfItems (h : item ∈ items) (hn : n ∈ lengths item) :
    n ∈ lengthsOfItems items := by
  induction items with
  | nil => cases h
  | cons head items ih =>
    rw [lengthsOfItems, mem_append]
    rcases mem_cons.mp h with rfl | h
    · exact .inl hn
    · exact .inr (ih h)

/-- And those written for a field among those for the record. -/
theorem mem_lengthsOfFields (h : f ∈ fields) (hn : n = (asBytes f.1).length ∨ n ∈ lengths f.2) :
    n ∈ lengthsOfFields fields := by
  induction fields with
  | nil => cases h
  | cons head fields ih =>
    rw [lengthsOfFields, mem_cons, mem_append]
    rcases mem_cons.mp h with rfl | h
    · exact hn.imp id .inl
    · exact .inr (.inr (ih h))

/-- Where a list's lengths fit, so do its items'. -/
theorem LengthsFit.item {item : Value E} (h : LengthsFit (.list items)) (hi : item ∈ items) :
    LengthsFit item :=
  fun n hn => h n (by rw [lengths]; exact mem_cons_of_mem _ (mem_lengthsOfItems hi hn))

/-- Where a record's lengths fit, so do its fields' and their names'. -/
theorem LengthsFit.field (h : LengthsFit (.record fields)) (hf : f ∈ fields)
    (hn : n = (asBytes f.1).length ∨ n ∈ lengths f.2) : n < 2 ^ 32 :=
  h n (by rw [lengths]; exact mem_cons_of_mem _ (mem_lengthsOfFields hf hn))

/-- A value without parts, behind its tag. -/
theorem reads_leaf (hdecode : decode.Inverts) (hlist : ∀ items, v ≠ .list items)
    (hrecord : ∀ fields, v ≠ .record fields) (henc : encodeBinary decimals v = .ok bytes)
    (hfit : LengthsFit v) : Reads (decodeBinaryFrom decimals decode (n + 1)) bytes v := by
  rw [encodeBinary.eq_def] at henc
  cases v with
  | list items => exact absurd rfl (hlist items)
  | record fields => exact absurd rfl (hrecord fields)
  | extension e =>
    exact reads_extension hdecode henc hfit
  | null =>
    exact reads_tagged henc (by decide) (Reads.pure _)
  | bool v =>
    refine reads_tagged henc (by decide) ?_
    have h := (Reads.byte ValueBinaryError.unexpectedEof (if v then 1 else 0)).map
      fun b => (Value.bool (b != 0) : Value E)
    cases v <;> exact h
  | int w v | uint w v =>
    cases w <;> exact reads_tagged henc (by decide) ((reads_field rfl v).map _)
  | float f v =>
    cases f <;> exact reads_tagged henc (by decide) ((reads_field rfl v).map _)
  | decimal v =>
    refine reads_tagged henc (by decide) ?_
    have htake : Reads (readSlice 16) (decimals.serialize v) (decimals.serialize v) := by
      have h := Reads.take ValueBinaryError.unexpectedEof (decimals.serialize v)
      rwa [decimals.length_serialize] at h
    have h := htake.map fun bytes => (Value.decimal (decimals.deserialize bytes) : Value E)
    rwa [decimals.deserialize_serialize] at h
  | text v =>
    have hlen : (asBytes v).length < 2 ^ 32 := hfit _ (by simp [lengths])
    exact reads_tagged henc (by decide) ((reads_string hlen).map Value.text)
  | bytes v =>
    have hlen : v.length < 2 ^ 32 := hfit _ (by simp [lengths])
    exact reads_tagged henc (by decide) ((reads_lenPrefixedBytes hlen).map Value.bytes)
  | date v =>
    exact reads_tagged henc (by decide) ((reads_field rfl v).map Value.date)
  | time v =>
    exact reads_tagged henc (by decide) ((reads_field rfl v).map Value.time)
  | localTime v =>
    exact reads_tagged henc (by decide) ((reads_field rfl v).map Value.localTime)
  | dateTime s n =>
    exact reads_tagged henc (by decide)
      ((reads_field rfl s).bind ((reads_field rfl n).map (Value.dateTime s)))
  | localDateTime s n =>
    exact reads_tagged henc (by decide)
      ((reads_field rfl s).bind ((reads_field rfl n).map (Value.localDateTime s)))
  | zonedDateTime s n tz =>
    exact reads_tagged henc (by decide)
      ((reads_field rfl s).bind
        ((reads_field rfl n).bind ((reads_field rfl tz).map (Value.zonedDateTime s n))))
  | zonedTime n tz =>
    exact reads_tagged henc (by decide)
      ((reads_field rfl n).bind ((reads_field rfl tz).map (Value.zonedTime n)))
  | duration m n =>
    exact reads_tagged henc (by decide)
      ((reads_field rfl m).bind ((reads_field rfl n).map (Value.duration m)))
  | path items =>
    have hlen : items.length < 2 ^ 32 := hfit _ (by simp [lengths])
    have hitems : ∀ e ∈ items, Reads readPathElement (encodePathElement e) e := by
      intro e he
      refine reads_pathElement (hfit _ ?_)
      rw [lengths]
      exact mem_cons_of_mem _ (mem_map_of_mem he)
    exact reads_tagged henc (by decide)
      ((reads_len hlen).bind ((Reads.repeated hitems).map Value.path))

/-- The decoder reads back what the encoder wrote, given the value's levels. -/
theorem encodeBinary_reads (hdecode : decode.Inverts) (v : Value E)
    (henc : encodeBinary decimals v = .ok bytes) (hfit : LengthsFit v) (hlevels : levels v ≤ n) :
    Reads (decodeBinaryFrom decimals decode n) bytes v := by
  induction v using Value.member_induction generalizing bytes n with
  | list items ih =>
    rw [levels] at hlevels
    obtain ⟨n, rfl⟩ : ∃ m, n = m + 1 := ⟨n - 1, by omega⟩
    rw [encodeBinary] at henc
    obtain ⟨body, hbody, henc⟩ := bind_inv henc
    cases henc
    have hlen : items.length < 2 ^ 32 := hfit _ (by simp [lengths])
    have hitems : Reads (repeated (decodeBinaryFrom decimals decode n) items.length) body items := by
      refine reads_items (fun item hi bytes hitem => ih item hi hitem (hfit.item hi) ?_) hbody
      have := levels_le_of_mem_items hi
      omega
    exact (Reads.byte ValueBinaryError.unexpectedEof (28 : UInt8)).bind
      ((reads_len hlen).bind (hitems.map Value.list))
  | record fields ih =>
    rw [levels] at hlevels
    obtain ⟨n, rfl⟩ : ∃ m, n = m + 1 := ⟨n - 1, by omega⟩
    rw [encodeBinary] at henc
    obtain ⟨body, hbody, henc⟩ := bind_inv henc
    cases henc
    have hlen : fields.length < 2 ^ 32 := hfit _ (by simp [lengths])
    have hfields := reads_fields
      (fun f hf bytes hvalue => ih f hf (n := n) hvalue
        (fun k hk => hfit.field hf (.inr hk)) (by have := levels_le_of_mem_fields hf; omega))
      (fun f hf => hfit.field hf (.inl rfl)) hbody
    exact (Reads.byte ValueBinaryError.unexpectedEof (30 : UInt8)).bind
      ((reads_len hlen).bind (hfields.map Value.record))
  | leaf v hlist hrecord =>
    have := levels_pos v
    obtain ⟨n, rfl⟩ : ∃ m, n = m + 1 := ⟨n - 1, by omega⟩
    exact reads_leaf hdecode hlist hrecord henc hfit

omit [ExtensionBinary E] in
theorem levelsOfItems_le (h : ∀ item ∈ items, levels item ≤ n) : levelsOfItems items ≤ n := by
  induction items with
  | nil => exact Nat.zero_le n
  | cons item items ih =>
    rw [levelsOfItems]
    exact max_le (h item (by simp)) (ih fun i hi => h i (by simp [hi]))

omit [ExtensionBinary E] in
theorem levelsOfFields_le (h : ∀ f ∈ fields, levels f.2 ≤ n) : levelsOfFields fields ≤ n := by
  induction fields with
  | nil => exact Nat.zero_le n
  | cons field fields ih =>
    rw [levelsOfFields]
    exact max_le (h field (by simp)) (ih fun f hf => h f (by simp [hf]))

omit [ExtensionBinary E] in
/-- A scalar has one level. -/
theorem decodeScalar_levels (tag : UInt8) :
    Yields (decodeScalar decimals decode tag) fun v => levels v = 1 := by
  unfold decodeScalar
  split <;> first
    | exact .fail _
    | exact .pure (by simp only [levels])
    | exact .bind (.any _) fun _ _ => .pure (by simp only [levels])
    | exact .bind (.any _) fun _ _ => .bind (.any _) fun _ _ => .pure (by simp only [levels])
    | exact .bind (.any _) fun _ _ => .bind (.any _) fun _ _ => .bind (.any _) fun _ _ =>
        .pure (by simp only [levels])

omit [ExtensionBinary E] in
/-- With `n` levels left, the decoder answers values of at most `n` levels. -/
theorem decodeBinaryFrom_levels (n : Nat) :
    Yields (decodeBinaryFrom decimals decode n) fun v => levels v ≤ n := by
  induction n with
  | zero => exact .fail _
  | succ n ih =>
    refine .bind (.any _) fun tag _ => ?_
    split
    · refine .bind (.any _) fun len _ => .bind (ih.repeated len) fun items hitems => .pure ?_
      rw [levels]
      exact Nat.succ_le_succ (levelsOfItems_le hitems)
    · have hfield := Yields.bind (.any readString) fun key _ => ih.bind fun value hvalue =>
        Yields.pure (p := fun f : String × Value E => levels f.2 ≤ n) (a := (key, value)) hvalue
      refine .bind (.any _) fun len _ => .bind (hfield.repeated len) fun fields hfields => .pure ?_
      rw [levels]
      exact Nat.succ_le_succ (levelsOfFields_le hfields)
    · intro bytes v rest h
      rw [decodeScalar_levels _ bytes v rest h]
      omega

/-- A value comes back from its bytes, all of them used, exactly if it has at
most 64 levels. -/
theorem fromBinaryBytes_toBinaryBytes (hdecode : decode.Inverts) (v : Value E) {bytes : List UInt8}
    (hfit : LengthsFit v) (henc : toBinaryBytes decimals v = .ok bytes) :
    (decodeBinaryFrom decimals decode maxBinaryNestingDepth bytes = .ok (v, []) ∧
      fromBinaryBytesWithExtensions decimals decode bytes = .ok v) ↔
    levels v ≤ maxBinaryNestingDepth := by
  refine ⟨fun h => decodeBinaryFrom_levels _ _ _ _ h.1, fun hlevels => ?_⟩
  have hread := (encodeBinary_reads hdecode v henc hfit hlevels).whole
  refine ⟨hread, ?_⟩
  rw [fromBinaryBytesWithExtensions, hread]
  rfl

theorem fromBinaryBytes_toBinaryBytes_list :
    ∃ bytes, toBinaryBytes DecimalBytes.plain (.list [.text "a", .null] : Value Empty) = .ok bytes ∧
      fromBinaryBytesWithExtensions DecimalBytes.plain (.deny Empty) bytes =
        .ok (.list [.text "a", .null]) :=
  ⟨_, rfl, ((fromBinaryBytes_toBinaryBytes ExtensionBinaryDecode.deny_inverts _ (by decide)
    rfl).mpr (by decide)).2⟩

end RoundTrip

/-! ## Values the decoder refuses -/

section Nested

variable {E : Type} {decimals : DecimalBytes} {decode : ExtensionBinaryDecode E}

/-- `v` inside `n` lists. -/
def nested : Nat → Value E → Value E
  | 0, v => v
  | n + 1, v => .list [nested n v]

/-- The bytes of `v` inside `n` lists. -/
def nestedBytes : Nat → List UInt8 → List UInt8
  | 0, bytes => bytes
  | n + 1, bytes => 28 :: (writeLen 1 ++ nestedBytes n bytes)

/-- Each list of one around a value adds its tag and a count of one. -/
theorem encodeBinary_nested [ExtensionBinary E] {v : Value E}
    (h : encodeBinary decimals v = .ok bytes) (n : Nat) :
    encodeBinary decimals (nested n v) = .ok (nestedBytes n bytes) := by
  induction n with
  | zero => exact h
  | succ n ih => simp [nested, encodeBinary, encodeItems, ih, nestedBytes]

/-- Lists as deep as the levels left are refused, whatever is inside. -/
theorem decodeBinaryFrom_nestedBytes (n : Nat) (bytes : List UInt8) :
    decodeBinaryFrom decimals decode n (nestedBytes n bytes) = .error .nestingTooDeep := by
  induction n with
  | zero => rfl
  | succ n ih =>
    have hlen : readLen (writeLen 1 ++ nestedBytes n bytes) = .ok (1, nestedBytes n bytes) :=
      reads_len (by decide) _
    show (readLen (writeLen 1 ++ nestedBytes n bytes) >>= fun p =>
      (repeated (decodeBinaryFrom decimals decode n) p.1 >>= fun items =>
        (pure (Value.list items) : ValueReader (Value E))) p.2) = _
    rw [hlen, ok_bind]
    show ((decodeBinaryFrom decimals decode n (nestedBytes n bytes) >>= _) >>= _) = _
    rw [ih]
    rfl

/-- NULL inside 64 lists: encoded, and not readable. -/
theorem fromBinaryBytes_nested_sixtyFour :
    ∃ bytes, toBinaryBytes DecimalBytes.plain (nested 64 (.null : Value Empty)) = .ok bytes ∧
      fromBinaryBytesWithExtensions DecimalBytes.plain (.deny Empty) bytes =
        .error .nestingTooDeep := by
  refine ⟨nestedBytes 64 [0], encodeBinary_nested rfl 64, ?_⟩
  rw [fromBinaryBytesWithExtensions, maxBinaryNestingDepth, decodeBinaryFrom_nestedBytes]
  rfl

end Nested

end Binary

end Gleaph
