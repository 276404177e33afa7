import Gleaph.Panic
import Gleaph.Bytes

/-!
# Gleaph.Layout

What a byte buffer holds where.

`Holds data off bs` says that `data` carries `bs` from offset `off` on.  A
buffer that holds a concatenation holds its parts at their offsets, so the
layout of an encoder's output is read off once and every access of a reader
(`slice`, an index, a little-endian word) is answered from the part it falls
into.
-/

namespace Gleaph

open List

/-- The bytes of `data[a..b]`, when in bounds. -/
def slice (data : List UInt8) (a b : Nat) : Option (List UInt8) :=
  if a ≤ b ∧ b ≤ data.length then some ((data.drop a).take (b - a)) else none

/-- The little-endian word of `w` bytes at an offset; out of bounds panics. -/
def readWord (message : String) (w : Nat) (data : List UInt8) (off : Nat) : Except String Nat := do
  let bytes ← expect message (slice data off (off + w))
  return leValue bytes

/-- The bytes `bs` stand in `data` from offset `off` on. -/
def Holds (data : List UInt8) (off : Nat) (bs : List UInt8) : Prop :=
  ∃ before after, data = before ++ (bs ++ after) ∧ before.length = off

/-! ## Entries laid end to end -/

section Entries

variable {α : Type}

/-- Where entry `b` starts when the entries' bytes follow each other. -/
def startOf (f : α → List UInt8) (es : List α) (b : Nat) : Nat := ((es.take b).flatMap f).length

/-- The next item starts where this one ends. -/
theorem startOf_succ (h : es[b]? = some e) :
    startOf f es (b + 1) = startOf f es b + (f e).length := by
  obtain ⟨hb, rfl⟩ := List.getElem?_eq_some_iff.mp h
  rw [startOf, startOf, take_succ_eq_append_getElem hb, flatMap_append,
    length_append, flatMap_cons, flatMap_nil, append_nil]

/-- Behind the last item is the end. -/
theorem startOf_length (es : List α) : startOf f es es.length = (es.flatMap f).length := by
  rw [startOf, take_length]

/-- Later entries do not move earlier ones. -/
theorem startOf_append (hb : b ≤ es.length) (xs : List α) :
    startOf f (es ++ xs) b = startOf f es b := by
  rw [startOf, startOf, take_append_of_le_length hb]

/-- Items of a bounded size start within that bound times their index. -/
theorem startOf_le (hw : ∀ e ∈ es, (f e).length ≤ w) (hb : b ≤ es.length) :
    startOf f es b ≤ w * b := by
  induction b with
  | zero => simp [startOf]
  | succ b ih =>
    have hlt := getElem?_eq_getElem hb
    have hle := hw _ (mem_of_getElem? hlt)
    have := ih (by omega)
    rw [startOf_succ hlt, Nat.mul_succ]
    omega

/-- The starts, with the end of the last entry. -/
theorem startOf_range (es : List α) :
    (List.range es.length).map (fun b => startOf f es b % 2 ^ 32) ++
        [(es.flatMap f).length % 2 ^ 32] =
      (List.range (es.length + 1)).map fun b => startOf f es b % 2 ^ 32 := by
  rw [range_succ, map_append, map_singleton, startOf_length]

/-- The starts, recorded while appending entry after entry. -/
theorem startOf_concat (es : List α) (e : α) :
    (List.range (es ++ [e]).length).map (fun b => startOf f (es ++ [e]) b % 2 ^ 32) =
      (List.range es.length).map (fun b => startOf f es b % 2 ^ 32) ++
        [(es.flatMap f).length % 2 ^ 32] := by
  have hinit : (List.range es.length).map (fun b => startOf f (es ++ [e]) b % 2 ^ 32) =
      (List.range es.length).map fun b => startOf f es b % 2 ^ 32 :=
    map_congr_left fun b hb => by rw [startOf_append (mem_range.mp hb).le]
  rw [length_append, length_singleton, range_succ, map_append, hinit,
    map_singleton, startOf_append (Nat.le_refl _), startOf_length]

end Entries

namespace Holds

/-- The data itself stands at offset zero. -/
theorem of_eq (h : data = bs) : Holds data 0 bs := ⟨[], [], by simp [h], rfl⟩

/-- What stands in the data fits into it. -/
theorem le (h : Holds data off bs) : off + bs.length ≤ data.length := by
  obtain ⟨before, after, hdata, hoff⟩ := h
  simp only [hdata, length_append, ← hoff]
  omega

/-- Of two parts in a row, the first stands at the offset. -/
theorem left (h : Holds data off (bs ++ cs)) : Holds data off bs := by
  obtain ⟨before, after, hdata, hoff⟩ := h
  exact ⟨before, cs ++ after, by simpa using hdata, hoff⟩

/-- The second stands behind it. -/
theorem right (h : Holds data off (bs ++ cs)) : Holds data (off + bs.length) cs := by
  obtain ⟨before, after, hdata, hoff⟩ := h
  exact ⟨before ++ bs, after, by simpa using hdata, by simp [hoff]⟩

/-- A slice reads back what stands there. -/
theorem slice_eq (h : Holds data off bs) : slice data off (off + bs.length) = some bs := by
  have hle := h.le
  obtain ⟨before, after, hdata, hoff⟩ := h
  rw [slice, if_pos ⟨Nat.le_add_right _ _, hle⟩, hdata, ← hoff, drop_left,
    Nat.add_sub_cancel_left, take_left]

/-- What stands last is what is left behind its offset. -/
theorem drop_eq (h : Holds data off bs) (hend : data.length ≤ off + bs.length) :
    data.drop off = bs := by
  obtain ⟨before, after, hdata, hoff⟩ := h
  have hafter : after = [] := by
    rw [← length_eq_zero_iff]
    simp only [hdata, length_append, ← hoff] at hend
    omega
  rw [hdata, ← hoff, drop_left, hafter, append_nil]

/-- So does an index. -/
theorem getElem?_eq (h : Holds data off bs) (hi : i < bs.length) : data[off + i]? = bs[i]? := by
  obtain ⟨before, after, hdata, hoff⟩ := h
  rw [hdata, ← hoff, getElem?_append_right (Nat.le_add_right _ _), Nat.add_sub_cancel_left,
    getElem?_append_left hi]

/-- So does the first byte. -/
theorem head (h : Holds data off (b :: bs)) : data[off]? = some b :=
  h.getElem?_eq (i := 0) (by simp)

/-- The bytes behind the first. -/
theorem tail (h : Holds data off (b :: bs)) : Holds data (off + 1) bs :=
  (show Holds data off ([b] ++ bs) from h).right

/-- A stored word reads back. -/
theorem readWord_eq (message : String) (h : Holds data off (leBytes w n)) :
    readWord message w data off = .ok (n % 256 ^ w) := by
  have hslice := h.slice_eq
  rw [length_leBytes] at hslice
  simp [readWord, hslice, leValue_leBytes]

/-! ## Tables -/

/-- The entry at an index stands behind the entries before it. -/
theorem flatMap {α : Type} {f : α → List UInt8} {es : List α} (h : Holds data off (es.flatMap f))
    {e : α} (he : es[i]? = some e) : Holds data (off + startOf f es i) (f e) := by
  obtain ⟨hi, he⟩ := List.getElem?_eq_some_iff.mp he
  rw [← take_append_drop i es, drop_eq_getElem_cons hi, flatMap_append,
    flatMap_cons, he] at h
  exact h.right.left

/-- Items of one width take that width times their number. -/
theorem length_flatMap_of_width {α : Type} {f : α → List UInt8} {es : List α}
    (hw : ∀ e ∈ es, (f e).length = w) : (es.flatMap f).length = es.length * w := by
  induction es with
  | nil => simp
  | cons e es ih =>
    rw [flatMap_cons, length_append, hw e (by simp),
      ih fun e he => hw e (by simp [he]), length_cons, Nat.succ_mul, Nat.add_comm]

/-- Entries of one width stand at multiples of it. -/
theorem entry {α : Type} {f : α → List UInt8} {es : List α} (h : Holds data off (es.flatMap f))
    (hw : ∀ e ∈ es, (f e).length = w) {i : Nat} {e : α} (he : es[i]? = some e) :
    Holds data (off + i * w) (f e) := by
  have hi := (List.getElem?_eq_some_iff.mp he).1
  have hentry := h.flatMap he
  rwa [startOf, length_flatMap_of_width fun e he => hw e (List.mem_of_mem_take he),
    List.length_take, Nat.min_eq_left hi.le] at hentry

/-- An entry between the starts that a reader has in memory. -/
theorem slice_starts {α : Type} {f : α → List UInt8} {es : List α}
    (h : Holds data off (es.flatMap f)) (hstarts : starts = (List.range (n + 1)).map (startOf f es))
    (hb : b < n) {e : α} (he : es[b]? = some e) :
    starts[b]? = some (startOf f es b) ∧
      starts[b + 1]? = some (startOf f es b + (f e).length) ∧
      slice data (off + startOf f es b) (off + (startOf f es b + (f e).length)) = some (f e) := by
  have hslice := (h.flatMap he).slice_eq
  rw [Nat.add_assoc] at hslice
  have hget : ∀ b, b < n + 1 → starts[b]? = some (startOf f es b) := by
    intro b hb
    simp [hstarts, hb]
  exact ⟨hget b (by omega), startOf_succ he ▸ hget (b + 1) (by omega), hslice⟩

end Holds

/-! ## Chunks -/

section Chunks

variable {α : Type}

/-- `⌈n / k⌉`. -/
def ceilDiv (n k : Nat) : Nat := (n + k - 1) / k

/-- Chunk `b` of a list cut every `k` elements. -/
def chunk (k : Nat) (xs : List α) (b : Nat) : List α := (xs.drop (b * k)).take k

/-- The list cut every `k` elements (`chunks`). -/
def chunks (k : Nat) (xs : List α) : List (List α) :=
  (List.range (ceilDiv xs.length k)).map (chunk k xs)

/-- A block index is valid if the block starts within the items. -/
theorem lt_ceilDiv_iff (hk : 0 < k) : b < ceilDiv n k ↔ b * k < n := by
  rw [ceilDiv, Nat.lt_div_iff_mul_lt hk]
  omega

/-- Inside a block, the index counts from the block's start. -/
theorem getElem?_chunk (hi : i < k) : (chunk k xs b)[i]? = xs[b * k + i]? := by
  rw [chunk, getElem?_take_of_lt hi, getElem?_drop]

/-- The last block may be short. -/
theorem length_chunk (b : Nat) : (chunk k xs b).length = min k (xs.length - b * k) := by
  rw [chunk, length_take, length_drop]

/-- There are as many blocks as it takes. -/
theorem length_chunks : (chunks k xs).length = ceilDiv xs.length k := by
  rw [chunks, length_map, length_range]

/-- The blocks in their order. -/
theorem getElem?_chunks (hb : b < ceilDiv xs.length k) :
    (chunks k xs)[b]? = some (chunk k xs b) := by
  simp [chunks, hb]

end Chunks

end Gleaph
