import Mathlib

/-!
# Gleaph.Bytes

Byte-list plumbing shared by the key encoder and the posting codecs:
fixed-width big-endian and little-endian words over `List UInt8`, their
lengths, and reading a little-endian word back.

Words are natural numbers here; a caller that has a fixed-width integer
supplies the bound `n < 256 ^ w`.
-/

namespace Gleaph

/-! ## Big-endian words -/

/-- The `w`-byte big-endian word of `n` (`to_be_bytes`). -/
def beBytes : Nat → Nat → List UInt8
  | 0, _ => []
  | w + 1, n => UInt8.ofNat (n / 256 ^ w) :: beBytes w n

/-- Bits above the word's width do not show. -/
theorem beBytes_mod (w k n : Nat) (h : w ≤ k) : beBytes w (n % 256 ^ k) = beBytes w n := by
  induction w with
  | zero => rfl
  | succ w ih =>
    have hdvd : 256 ^ (w + 1) ∣ 256 ^ k := Nat.pow_dvd_pow 256 h
    have hlead : UInt8.ofNat (n % 256 ^ k / 256 ^ w) = UInt8.ofNat (n / 256 ^ w) := by
      apply UInt8.toNat_inj.mp
      rw [UInt8.toNat_ofNat', UInt8.toNat_ofNat', ← Nat.mod_mul_right_div_self,
        ← Nat.mod_mul_right_div_self, show 256 ^ w * 2 ^ 8 = 256 ^ (w + 1) from rfl,
        Nat.mod_mod_of_dvd n hdvd]
    rw [beBytes, beBytes, hlead, ih (by omega)]

/-! ## Little-endian words -/

/-- The `w`-byte little-endian word of `n` (`to_le_bytes`). -/
def leBytes : Nat → Nat → List UInt8
  | 0, _ => []
  | w + 1, n => UInt8.ofNat n :: leBytes w (n / 256)

/-- The value of a little-endian byte list (`from_le_bytes`). -/
def leValue : List UInt8 → Nat
  | [] => 0
  | b :: bs => b.toNat + 256 * leValue bs

@[simp] theorem length_leBytes (w n : Nat) : (leBytes w n).length = w := by
  induction w generalizing n with
  | zero => rfl
  | succ w ih => simp [leBytes, ih]

/-- A word reads back modulo its width. -/
theorem leValue_leBytes (w n : Nat) : leValue (leBytes w n) = n % 256 ^ w := by
  induction w generalizing n with
  | zero => simp [leBytes, leValue, Nat.mod_one]
  | succ w ih =>
    rw [leBytes, leValue, ih, UInt8.toNat_ofNat', Nat.pow_succ' (n := w), Nat.mod_mul]

end Gleaph
