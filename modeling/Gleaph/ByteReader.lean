import Gleaph.Bytes
import Gleaph.Panic

/-!
# Gleaph.ByteReader

Readers that take what they need from the front of a byte list, and the rules
by which a reader is shown to read an encoding back.

`Reads r bytes a` says that `r`, in front of `bytes`, answers `a` and leaves
whatever follows.  It is closed under sequencing (`Reads.bind`) and repetition
(`Reads.repeated`), so a decoder is checked against an encoder field by field.
-/

namespace Gleaph

/-- Bytes still to come in, an answer and the bytes left out. -/
abbrev ByteReader (ε α : Type) := StateT (List UInt8) (Except ε) α

namespace ByteReader

variable {ε α β : Type}

/-- The next `n` bytes, or `eof` if fewer are left. -/
def take (eof : ε) (n : Nat) : ByteReader ε (List UInt8) := fun bytes =>
  if n ≤ bytes.length then .ok (bytes.take n, bytes.drop n) else .error eof

/-- The next byte. -/
def byte (eof : ε) : ByteReader ε UInt8
  | [] => .error eof
  | b :: rest => .ok (b, rest)

def fail (e : ε) : ByteReader ε α := fun _ => .error e

/-- An answer that is there already, or failed already. -/
def lift (x : Except ε α) : ByteReader ε α := fun bytes => x.map fun a => (a, bytes)

/-- One reader `n` times over. -/
def repeated (r : ByteReader ε α) : Nat → ByteReader ε (List α)
  | 0 => pure []
  | n + 1 => do
    let a ← r
    let as ← repeated r n
    return a :: as

/-! ## Reading back -/

/-- In front of `bytes`, the reader answers `a` and stops behind them. -/
def Reads (r : ByteReader ε α) (bytes : List UInt8) (a : α) : Prop :=
  ∀ rest, r (bytes ++ rest) = .ok (a, rest)

namespace Reads

/-- A reader that reads nothing. -/
theorem pure (a : α) : Reads (Pure.pure a : ByteReader ε α) [] a := fun _ => rfl

/-- Two readers in a row read the bytes of both. -/
theorem bind (hr : Reads r xs a) (hf : Reads (f a) ys b) : Reads (r >>= f) (xs ++ ys) b := by
  intro rest
  rw [List.append_assoc]
  show (r (xs ++ (ys ++ rest)) >>= fun p => f p.1 p.2) = .ok (b, rest)
  rw [hr, ok_bind]
  exact hf rest

/-- A reader followed by a step that reads nothing. -/
theorem bind_last (hr : Reads r xs a) (hf : Reads (f a) [] b) : Reads (r >>= f) xs b := by
  have h : Reads (r >>= f) (xs ++ []) b := hr.bind hf
  rwa [List.append_nil] at h

/-- A function of what was read takes no further bytes. -/
theorem map (g : α → β) (hr : Reads r xs a) :
    Reads (r >>= fun a => Pure.pure (g a)) xs (g a) :=
  hr.bind_last (Reads.pure (g a))

/-- The next byte. -/
theorem byte (eof : ε) (b : UInt8) : Reads (ByteReader.byte eof) [b] b := fun _ => rfl

/-- The next bytes, as many as there are. -/
theorem take (eof : ε) (bytes : List UInt8) :
    Reads (ByteReader.take eof bytes.length) bytes bytes := by
  intro rest
  simp [ByteReader.take]

theorem lift (a : α) : Reads (ByteReader.lift (.ok a) : ByteReader ε α) [] a := fun _ => rfl

/-- One more repetition reads its bytes first. -/
theorem repeated_cons (ha : Reads r xs a) (has : Reads (repeated r n) ys as) :
    Reads (repeated r (n + 1)) (xs ++ ys) (a :: as) :=
  ha.bind (has.map (a :: ·))

/-- A reader that reads each item back reads a run of items back. -/
theorem repeated (h : ∀ a ∈ as, Reads r (encode a) a) :
    Reads (repeated r as.length) (as.flatMap encode) as := by
  induction as with
  | nil => exact Reads.pure []
  | cons a as ih =>
    rw [List.flatMap_cons]
    exact (h a (by simp)).repeated_cons (ih fun a ha => h a (by simp [ha]))

/-- Nothing is left behind a reader that has read everything. -/
theorem whole (hr : Reads r xs a) : r xs = .ok (a, []) := by
  simpa using hr []

end Reads

/-! ## What a reader may answer -/

/-- Every answer of the reader has the property. -/
def Yields (r : ByteReader ε α) (p : α → Prop) : Prop :=
  ∀ bytes a rest, r bytes = .ok (a, rest) → p a

namespace Yields

/-- What a reader returns without reading. -/
theorem pure (h : p a) : Yields (Pure.pure a : ByteReader ε α) p := by
  rintro bytes _ _ ⟨⟩
  exact h

/-- A reader that fails yields nothing, so nothing is to be shown. -/
theorem fail (e : ε) : Yields (ByteReader.fail e) p := by
  rintro bytes _ _ ⟨⟩

/-- What the reader before answers does not matter where the next one yields. -/
theorem bind (hr : Yields r q) (hf : ∀ a, q a → Yields (f a) p) : Yields (r >>= f) p := by
  intro bytes b rest h
  obtain ⟨⟨a, later⟩, ha, hb⟩ := bind_inv h
  exact hf a (hr bytes a later ha) later b rest hb

/-- Nothing asked of the answers. -/
theorem any (r : ByteReader ε α) : Yields r fun _ => True := fun _ _ _ _ => trivial

/-- If each repetition yields only such values, the list holds only such values.
-/
theorem repeated (hr : Yields r p) (n : Nat) : Yields (repeated r n) fun as => ∀ a ∈ as, p a := by
  induction n with
  | zero => exact .pure (by simp)
  | succ n ih =>
    exact hr.bind fun a ha => ih.bind fun as has => .pure (List.forall_mem_cons.mpr ⟨ha, has⟩)

end Yields

end ByteReader

end Gleaph
