import Gleaph.Cmp
import Gleaph.Value.Binary

/-!
# Gleaph.Join.Hash

The bytes a join key feeds to the hasher: `hash_value_for_join`
(`crates/gql-value/src/join_hash.rs`).

The hash follows the form a value is carried in, its integer width, float
format, time offset and field order included, while `compareValues` does not.
`Alike` is the part of equality the hash respects (`joinBytes_eq_of_alike`):
the same value, up to the sign of a float zero and trailing zeros of a
decimal.
-/

namespace Gleaph.Join

open Binary

/-- The hashing hook of `dyn ExtensionValue`. -/
class ExtensionJoinKey (E : Type) where
  hashJoinKey : E → List UInt8

instance : ExtensionJoinKey Empty where
  hashJoinKey := nofun

/-! ## Hashed bytes -/

def signedTag : IntWidth → UInt8
  | .w8 => 22
  | .w16 => 23
  | .w32 => 24
  | .w64 => 25
  | .w128 => 26
  | .w256 => 27

def unsignedTag : IntWidth → UInt8
  | .w8 => 28
  | .w16 => 29
  | .w32 => 30
  | .w64 => 31
  | .w128 => 32
  | .w256 => 33

def floatTag : FloatFormat → UInt8
  | .f16 => 34
  | .f32 => 35
  | .f64 => 36
  | .f128 => 37
  | .f256 => 38

/-- `v == 0.0`: no bit set besides the sign. -/
def isZero {f : FloatFormat} (v : BitVec f.bits) : Bool := v.toNat % 2 ^ (f.bits - 1) == 0

/-- `canonical_f16_bits` to `canonical_f256_le_bytes`. -/
def canonicalBits {f : FloatFormat} (v : BitVec f.bits) : BitVec f.bits :=
  if isZero v then 0 else v

/-- `write_u64(len)`, then the bytes. -/
def sizedBytes (bytes : List UInt8) : List UInt8 := leBytes 8 bytes.length ++ bytes

/-- `hash_path_element_for_join` -/
def pathElementBytes : PathElement → List UInt8
  | .vertex id => 10 :: sizedBytes id
  | .edge id => 11 :: sizedBytes id

section

variable {E : Type} [ExtensionJoinKey E]

mutual

/-- `hash_value_for_join`: the bytes written to the hasher. -/
def joinBytes (crates : Crates) (decimals : DecimalBytes) : Value E → List UInt8
  | .null => [20]
  | .bool b => [21, if b then 1 else 0]
  | .int w v => signedTag w :: fieldBytes v
  | .uint w v => unsignedTag w :: fieldBytes v
  | .float f v => floatTag f :: fieldBytes (canonicalBits v)
  | .decimal d => 39 :: decimals.serialize (crates.decimalNormalize d)
  | .text s => 40 :: sizedBytes (asBytes s)
  | .bytes b => 41 :: sizedBytes b
  | .date v => 42 :: fieldBytes v
  | .time v => 43 :: fieldBytes v
  | .localTime v => 44 :: fieldBytes v
  | .dateTime s n => 45 :: (fieldBytes s ++ fieldBytes n)
  | .localDateTime s n => 46 :: (fieldBytes s ++ fieldBytes n)
  | .zonedDateTime s n tz =>
    47 :: (fieldBytes s ++ (fieldBytes n ++ fieldBytes tz))
  | .zonedTime n tz => 48 :: (fieldBytes n ++ fieldBytes tz)
  | .duration m n => 49 :: (fieldBytes m ++ fieldBytes n)
  | .list items => 50 :: (leBytes 8 items.length ++ itemBytes crates decimals items)
  | .path elements => 51 :: (leBytes 8 elements.length ++ elements.flatMap pathElementBytes)
  | .record fields => 52 :: (leBytes 8 fields.length ++ fieldsBytes crates decimals fields)
  | .extension e => 53 :: ExtensionJoinKey.hashJoinKey e

def itemBytes (crates : Crates) (decimals : DecimalBytes) : List (Value E) → List UInt8
  | [] => []
  | item :: items => joinBytes crates decimals item ++ itemBytes crates decimals items

def fieldsBytes (crates : Crates) (decimals : DecimalBytes) :
    List (String × Value E) → List UInt8
  | [] => []
  | (name, value) :: fields =>
    sizedBytes (asBytes name) ++
      (joinBytes crates decimals value ++ fieldsBytes crates decimals fields)

end

end

/-! ## What the hash respects -/

variable {E : Type}

/-- The same value in the same form, up to the sign of zero and trailing zeros
of decimals. -/
inductive Alike (crates : Crates) : Value E → Value E → Prop
  | refl (v : Value E) : Alike crates v v
  | zero {f : FloatFormat} {a b : BitVec f.bits} (ha : isZero a = true) (hb : isZero b = true) :
      Alike crates (.float f a) (.float f b)
  | decimal {a b : Decimal} (h : crates.decimalNormalize a = crates.decimalNormalize b) :
      Alike crates (.decimal a) (.decimal b)
  | item {v w : Value E} {vs ws : List (Value E)} (head : Alike crates v w)
      (tail : Alike crates (.list vs) (.list ws)) :
      Alike crates (.list (v :: vs)) (.list (w :: ws))
  | field {name : String} {v w : Value E} {fs gs : List (String × Value E)}
      (head : Alike crates v w) (tail : Alike crates (.record fs) (.record gs)) :
      Alike crates (.record ((name, v) :: fs)) (.record ((name, w) :: gs))

variable [ExtensionJoinKey E]

/-- Equal sizes and equal bytes of the members, where both are lists or both
are records. -/
def SameMembers (crates : Crates) (decimals : DecimalBytes) : Value E → Value E → Prop
  | .list vs, .list ws =>
    vs.length = ws.length ∧ itemBytes crates decimals vs = itemBytes crates decimals ws
  | .record fs, .record gs =>
    fs.length = gs.length ∧ fieldsBytes crates decimals fs = fieldsBytes crates decimals gs
  | _, _ => True

/-- Alike values are hashed from the same bytes. -/
theorem joinBytes_eq_of_alike {v w : Value E} (h : Alike crates v w) :
    joinBytes crates decimals v = joinBytes crates decimals w := by
  -- The tail of a list is hashed inside its list, so the induction also
  -- carries the members.
  suffices h' : joinBytes crates decimals v = joinBytes crates decimals w ∧
      SameMembers crates decimals v w from h'.1
  induction h with
  | refl v => exact ⟨rfl, by cases v <;> simp [SameMembers]⟩
  | zero ha hb => simp [joinBytes, canonicalBits, ha, hb, SameMembers]
  | decimal h => simp [joinBytes, h, SameMembers]
  | item _ _ ihead itail =>
    obtain ⟨hlen, hbytes⟩ := itail.2
    simp [joinBytes, itemBytes, ihead.1, hlen, hbytes, SameMembers]
  | field _ _ ihead itail =>
    obtain ⟨hlen, hbytes⟩ := itail.2
    simp [joinBytes, fieldsBytes, ihead.1, hlen, hbytes, SameMembers]

end Gleaph.Join
