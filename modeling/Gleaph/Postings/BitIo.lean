import Gleaph.Panic
import Gleaph.Bytes

/-!
# Gleaph.Postings.BitIo

LSB-first bit packing (`crates/ic-stable-text-postings/src/enc/bitio.rs`).

A stream of bytes is a number in base 256.  Writing values of `b` bits each
writes the number with these digits in base `2 ^ b` (`packed`), and reading
`b` bits at position `i * b` gives back digit `i` (`read_packed`).
-/

namespace Gleaph.Postings

open List

/-! ## Writing -/

structure BitWriter where
  out : List UInt8
  acc : Nat
  accBits : Nat
  deriving DecidableEq, Repr

namespace BitWriter

def new : BitWriter := ⟨[], 0, 0⟩

/-- Move whole bytes out of the accumulator. -/
def flush (w : BitWriter) : BitWriter :=
  if 8 ≤ w.accBits then
    flush ⟨w.out ++ [UInt8.ofNat (w.acc &&& 0xFF)], w.acc >>> 8, w.accBits - 8⟩
  else w
termination_by w.accBits

variable (w : BitWriter)

/-- Append the low `bits` bits of a value that has no others; the accumulator
is a `u64`. -/
def push (value bits : Nat) : BitWriter :=
  flush ⟨w.out, (w.acc ||| value <<< w.accBits) % 2 ^ 64, w.accBits + bits⟩

/-- Pad to a whole byte. -/
def finish : List UInt8 :=
  if 0 < w.accBits then w.out ++ [UInt8.ofNat (w.acc &&& 0xFF)] else w.out

/-- The number written so far. -/
def value : Nat := leValue w.out + 256 ^ w.out.length * w.acc

/-- The number of bits written so far. -/
def size : Nat := 8 * w.out.length + w.accBits

end BitWriter

/-- Values of one width, packed. -/
def pack (bits : Nat) (values : List Nat) : List UInt8 :=
  (values.foldl (fun w v => w.push v bits) BitWriter.new).finish

/-! ## Reading -/

/-- The bits from a position on, collected from bit `i` up. -/
def readLoop (data : List UInt8) : Nat → Nat → Nat → Nat → Except String Nat
  | 0, _, value, _ => .ok (value % 2 ^ 32)
  | fuel + 1, i, value, bitPos => do
    let byte ← expect "corrupt postings: bit stream truncated" data[bitPos >>> 3]?
    let bit := (byte.toNat >>> (bitPos &&& 7)) &&& 1
    readLoop data fuel (i + 1) (value ||| bit <<< i) (bitPos + 1)

/-- `bits` bits at a position (`seek_bits` and `read`). -/
def readBits (data : List UInt8) (bitPos bits : Nat) : Except String Nat :=
  readLoop data bits 0 0 bitPos

/-! ## Streams as numbers -/

theorem leValue_append (xs ys : List UInt8) :
    leValue (xs ++ ys) = leValue xs + 256 ^ xs.length * leValue ys := by
  induction xs with
  | nil => simp [leValue]
  | cons x xs ih =>
    rw [cons_append, leValue, ih, leValue, length_cons, Nat.pow_succ]
    ring

theorem testBit_leValue (data : List UInt8) (p : Nat) :
    (leValue data).testBit p = (data[p / 8]?.map fun b => b.toNat.testBit (p % 8)).getD false := by
  induction data generalizing p with
  | nil => simp [leValue]
  | cons b data ih =>
    rw [leValue, Nat.add_comm, show 256 = 2 ^ 8 from rfl,
      Nat.testBit_two_pow_mul_add _ b.toNat_lt]
    by_cases h : p < 8
    · simp [h, Nat.div_eq_of_lt h, Nat.mod_eq_of_lt h]
    have hdiv : p / 8 = (p - 8) / 8 + 1 := by omega
    have hmod : p % 8 = (p - 8) % 8 := by omega
    rw [if_neg h, ih, hdiv, hmod, getElem?_cons_succ]

namespace BitWriter

/-- No stale bits above the accumulated ones. -/
def WF (w : BitWriter) : Prop := w.acc < 2 ^ w.accBits

theorem flush_spec (w : BitWriter) (h : w.WF) :
    w.flush.WF ∧ w.flush.accBits < 8 ∧ w.flush.value = w.value ∧ w.flush.size = w.size := by
  induction hn : w.accBits using Nat.strongRecOn generalizing w with
  | ind n ih =>
    rw [flush]
    by_cases hle : 8 ≤ w.accBits
    · rw [if_pos hle]
      have hbyte : (UInt8.ofNat (w.acc &&& 0xFF)).toNat = w.acc % 256 := by
        rw [UInt8.toNat_ofNat', show (0xFF : Nat) = 2 ^ 8 - 1 from rfl,
          Nat.and_two_pow_sub_one_eq_mod]
        omega
      have hrest : w.acc >>> 8 = w.acc / 256 := Nat.shiftRight_eq_div_pow w.acc 8
      have hwf : WF ⟨w.out ++ [UInt8.ofNat (w.acc &&& 0xFF)], w.acc >>> 8, w.accBits - 8⟩ := by
        rw [WF, hrest, Nat.div_lt_iff_lt_mul (by decide), show 256 = 2 ^ 8 from rfl, ← Nat.pow_add,
          Nat.sub_add_cancel hle]
        exact h
      obtain ⟨h1, h2, h3, h4⟩ := ih (w.accBits - 8) (by omega) _ hwf rfl
      refine ⟨h1, h2, ?_, ?_⟩
      · rw [h3, value, value, leValue_append, length_append, hrest, leValue, leValue, hbyte,
          length_singleton, Nat.pow_succ]
        have := Nat.mod_add_div w.acc 256
        calc leValue w.out + 256 ^ w.out.length * (w.acc % 256 + 256 * 0) +
              256 ^ w.out.length * 256 * (w.acc / 256)
            = leValue w.out + 256 ^ w.out.length * (w.acc % 256 + 256 * (w.acc / 256)) := by ring
          _ = leValue w.out + 256 ^ w.out.length * w.acc := by rw [this]
      · rw [h4, size, size, length_append, length_singleton]
        simp only
        omega
    · rw [if_neg hle]
      exact ⟨h, by omega, rfl, rfl⟩

/-- A value of at most 32 bits lands above what was written. -/
theorem push_spec {w : BitWriter} (h : w.WF) (hacc : w.accBits < 8) (hbits : bits ≤ 32)
    (hv : v < 2 ^ bits) :
    (w.push v bits).WF ∧ (w.push v bits).accBits < 8 ∧
      (w.push v bits).value = w.value + 2 ^ w.size * v ∧
      (w.push v bits).size = w.size + bits := by
  have hor : w.acc ||| v <<< w.accBits = w.acc + 2 ^ w.accBits * v := by
    rw [Nat.shiftLeft_eq, Nat.or_comm, Nat.mul_comm v, ← Nat.two_pow_add_eq_or_of_lt h, Nat.add_comm]
  have hlt : w.acc + 2 ^ w.accBits * v < 2 ^ (w.accBits + bits) := by
    calc w.acc + 2 ^ w.accBits * v
        < 2 ^ w.accBits + 2 ^ w.accBits * v := Nat.add_lt_add_right h _
      _ = 2 ^ w.accBits * (v + 1) := by ring
      _ ≤ 2 ^ w.accBits * 2 ^ bits := Nat.mul_le_mul_left _ hv
      _ = 2 ^ (w.accBits + bits) := (Nat.pow_add 2 _ _).symm
  have hmod : (w.acc + 2 ^ w.accBits * v) % 2 ^ 64 = w.acc + 2 ^ w.accBits * v :=
    Nat.mod_eq_of_lt (hlt.trans_le (Nat.pow_le_pow_right (by decide) (by omega)))
  rw [push, hor, hmod]
  obtain ⟨h1, h2, h3, h4⟩ := flush_spec ⟨w.out, w.acc + 2 ^ w.accBits * v, w.accBits + bits⟩ hlt
  refine ⟨h1, h2, ?_, ?_⟩
  · rw [h3, value, value, size, Nat.pow_add, Nat.pow_mul]
    ring
  rw [h4, size, size]
  simp only
  omega

/-- Values of one width become the digits of one number. -/
theorem foldl_push_spec (hbits : bits ≤ 32) (hv : ∀ v ∈ values, v < 2 ^ bits) {w : BitWriter}
    (h : w.WF) (hacc : w.accBits < 8) :
    (values.foldl (fun w v => w.push v bits) w).WF ∧
      (values.foldl (fun w v => w.push v bits) w).accBits < 8 ∧
      (values.foldl (fun w v => w.push v bits) w).value =
        w.value + 2 ^ w.size * Nat.ofDigits (2 ^ bits) values ∧
      (values.foldl (fun w v => w.push v bits) w).size = w.size + bits * values.length := by
  induction values generalizing w with
  | nil => exact ⟨h, hacc, by simp, by simp⟩
  | cons v values ih =>
    obtain ⟨h1, h2, h3, h4⟩ := push_spec h hacc hbits (hv v (by simp))
    obtain ⟨g1, g2, g3, g4⟩ := ih (fun v hv' => hv v (by simp [hv'])) h1 h2
    rw [foldl_cons]
    refine ⟨g1, g2, ?_, ?_⟩
    · rw [g3, h3, h4, Nat.ofDigits_cons, Nat.pow_add]
      ring
    · rw [g4, h4, length_cons, Nat.mul_succ]
      omega

theorem leValue_finish {w : BitWriter} (h : w.WF) (hacc : w.accBits < 8) :
    leValue w.finish = w.value ∧ w.finish.length = (w.size + 7) / 8 := by
  rw [finish, value, size]
  by_cases hpos : 0 < w.accBits
  · have hlt : w.acc < 256 := h.trans_le (Nat.pow_le_pow_right (by decide) (show w.accBits ≤ 8 by omega))
    have hbyte : (UInt8.ofNat (w.acc &&& 0xFF)).toNat = w.acc := by
      rw [UInt8.toNat_ofNat', show (0xFF : Nat) = 2 ^ 8 - 1 from rfl, Nat.and_two_pow_sub_one_eq_mod]
      omega
    rw [if_pos hpos, leValue_append, leValue, leValue, hbyte, length_append,
      length_singleton]
    refine ⟨by simp, by omega⟩
  · have hzero : w.acc = 0 := by
      have : w.accBits = 0 := by omega
      rw [WF, this] at h
      omega
    rw [if_neg hpos, hzero]
    refine ⟨by simp, by omega⟩

end BitWriter

/-- A packed stream is the number with the values as digits. -/
theorem leValue_pack {bits : Nat} (hbits : bits ≤ 32) {values : List Nat}
    (hv : ∀ v ∈ values, v < 2 ^ bits) :
    leValue (pack bits values) = Nat.ofDigits (2 ^ bits) values ∧
      (pack bits values).length = (bits * values.length + 7) / 8 := by
  obtain ⟨h1, h2, h3, h4⟩ := BitWriter.foldl_push_spec hbits hv
    (show BitWriter.new.WF by simp [BitWriter.WF, BitWriter.new])
    (show BitWriter.new.accBits < 8 by simp [BitWriter.new])
  obtain ⟨hval, hlen⟩ := BitWriter.leValue_finish h1 h2
  rw [pack, hval, hlen, h3, h4]
  simp [BitWriter.value, BitWriter.size, BitWriter.new, leValue]

/-! ## Reading back -/

/-- Digit `i` of a number. -/
theorem ofDigits_div_mod (hv : ∀ v ∈ values, v < base) (hi : values[i]? = some v) :
    Nat.ofDigits base values / base ^ i % base = v := by
  induction values generalizing i with
  | nil => simp at hi
  | cons x values ih =>
    have hx := hv x (by simp)
    have hpos : 0 < base := Nat.zero_lt_of_lt hx
    rw [Nat.ofDigits_cons]
    cases i with
    | zero =>
      have heq : x = v := by simpa using hi
      rw [Nat.pow_zero, Nat.div_one, Nat.add_mul_mod_self_left, Nat.mod_eq_of_lt hx, heq]
    | succ i =>
      rw [Nat.pow_succ', ← Nat.div_div_eq_div_mul, Nat.add_mul_div_left _ _ hpos,
        Nat.div_eq_of_lt hx, Nat.zero_add]
      exact ih (fun v hv' => hv v (by simp [hv'])) (by simpa using hi)

theorem readLoop_eq (fuel : Nat) (hle : start + i + fuel ≤ 8 * data.length) :
    readLoop data fuel i (leValue data / 2 ^ start % 2 ^ i) (start + i) =
      .ok (leValue data / 2 ^ start % 2 ^ (i + fuel) % 2 ^ 32) := by
  induction fuel generalizing i with
  | zero => rfl
  | succ fuel ih =>
    have hlt : (start + i) >>> 3 < data.length := by
      rw [Nat.shiftRight_eq_div_pow]
      omega
    have hbit : (data[(start + i) >>> 3].toNat >>> ((start + i) &&& 7)) &&& 1 =
        ((leValue data / 2 ^ start).testBit i).toNat := by
      rw [Nat.testBit_div_two_pow, Nat.add_comm i, testBit_leValue,
        show (start + i) / 8 = (start + i) >>> 3 from (Nat.shiftRight_eq_div_pow _ 3).symm,
        getElem?_eq_getElem hlt, show (7 : Nat) = 2 ^ 3 - 1 from rfl,
        Nat.and_two_pow_sub_one_eq_mod]
      simp only [Option.map_some, Option.getD_some]
      rw [Nat.and_one_is_mod, Nat.toNat_testBit, Nat.shiftRight_eq_div_pow]
    have hacc : leValue data / 2 ^ start % 2 ^ i |||
        ((leValue data / 2 ^ start).testBit i).toNat <<< i =
        leValue data / 2 ^ start % 2 ^ (i + 1) := by
      rw [Nat.pow_succ, Nat.mod_mul, ← Nat.toNat_testBit, Nat.shiftLeft_eq, Nat.or_comm, Nat.mul_comm,
        ← Nat.two_pow_add_eq_or_of_lt (Nat.mod_lt _ (Nat.two_pow_pos i)), Nat.add_comm]
    simp only [readLoop, getElem?_eq_getElem hlt, expect_some, ok_bind, hbit, hacc]
    rw [Nat.add_assoc, ih (by omega), Nat.add_assoc, Nat.add_comm 1]

/-- Reading at a multiple of the width gives back a packed value. -/
theorem readBits_pack (hbits : bits ≤ 32) (hv : ∀ v ∈ values, v < 2 ^ bits)
    (hi : values[i]? = some v) : readBits (pack bits values) (i * bits) bits = .ok v := by
  obtain ⟨hval, hlen⟩ := leValue_pack hbits hv
  obtain ⟨hlt, hget⟩ := List.getElem?_eq_some_iff.mp hi
  have hroom : i * bits + 0 + bits ≤ 8 * (pack bits values).length := by
    have : (i + 1) * bits ≤ values.length * bits := Nat.mul_le_mul_right bits hlt
    rw [Nat.succ_mul, Nat.mul_comm values.length] at this
    omega
  have hread := readLoop_eq bits hroom
  rw [Nat.pow_zero, Nat.mod_one, Nat.add_zero, Nat.zero_add, hval, Nat.mul_comm i, Nat.pow_mul,
    ofDigits_div_mod hv hi] at hread
  rw [readBits, Nat.mul_comm i, hread, Nat.mod_eq_of_lt]
  exact (hv v (mem_of_getElem? hi)).trans_le (Nat.pow_le_pow_right (by decide) hbits)

end Gleaph.Postings
