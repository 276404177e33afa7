import Gleaph.Postings.Skip

/-!
# Gleaph.Postings.Skip.Sound

What the skip trailer records, and where it sends a reader.
-/

namespace Gleaph.Postings

open List hiding count

open SkipIndex (blockCount)

/-! ## The recorded blocks -/

/-- A list of `n` postings by docid and start offset, within `u32`. -/
structure Placed (doc offset : Nat → Nat) (n : Nat) : Prop where
  doc_lt : ∀ i, i < n → doc i < 2 ^ 32
  doc_mono : ∀ i j, i < j → j < n → doc i < doc j
  offset_lt : ∀ i, i < n → offset i < 2 ^ 32
  pos : 0 < n
  count_lt : n < 2 ^ 32

theorem Placed.doc_le (h : Placed doc offset n) (hij : i ≤ j) (hj : j < n) : doc i ≤ doc j := by
  by_cases heq : i = j
  · rw [heq]
  · exact (h.doc_mono i j (by omega) hj).le

section Blocks

variable (doc offset : Nat → Nat) (n : Nat)

/-- Block `b` of the list. -/
def blockOf (b : Nat) : SkipBlock :=
  ⟨doc (min ((b + 1) * 128) n - 1), offset (b * 128), min 128 (n - b * 128)⟩

def blocksOf : List SkipBlock := (List.range (blockCount n)).map (blockOf doc offset n)

/-- The builder behind the first `i` postings. -/
def SkipBuilder.behind : Nat → SkipBuilder
  | 0 => SkipBuilder.new
  | i + 1 =>
    ⟨(List.range (i / 128)).map (blockOf doc offset n), some (offset (i / 128 * 128)),
      i + 1 - i / 128 * 128, doc i⟩

variable {doc offset n}

open SkipBuilder

/-- One posting more. -/
theorem SkipBuilder.behind_posting (h : Placed doc offset n) (hi : i < n) :
    (behind doc offset n i).posting (i % 2 ^ 32) (offset i) (doc i) =
      behind doc offset n (i + 1) := by
  have hn := h.count_lt
  have hmod : i % 2 ^ 32 = i := Nat.mod_eq_of_lt (by omega)
  rw [hmod]
  cases i with
  | zero => simp [behind, new, posting, closeBlock]
  | succ i =>
    have hoff := Nat.mod_eq_of_lt (h.offset_lt (i / 128 * 128) (by omega))
    by_cases hstart : (i + 1) % logicalBlockSize = 0
    · have hfull : (i + 1) % 128 = 0 := hstart
      -- the open block is full and becomes block `i / 128`
      have hdiv : (i + 1) / 128 = i / 128 + 1 := by omega
      have hend : (i / 128 + 1) * 128 = i + 1 := by omega
      have hblock : blockOf doc offset n (i / 128) =
          ⟨doc i, offset (i / 128 * 128), i + 1 - i / 128 * 128⟩ := by
        rw [blockOf, hend, Nat.min_eq_left hi.le, Nat.add_sub_cancel, Nat.min_eq_left (by omega)]
        congr 1
        omega
      simp only [posting, behind, closeBlock, if_pos hstart, hoff, hdiv, range_succ, map_append, map_cons, map_nil,
        hblock, hend]
      congr 1
      omega
    · have hinside : ¬ (i + 1) % 128 = 0 := hstart
      have hdiv : (i + 1) / 128 = i / 128 := by omega
      have hcount : (i + 1 - i / 128 * 128 + 1) % 2 ^ 32 = i + 1 + 1 - i / 128 * 128 := by omega
      rw [posting, if_neg hstart]
      simp only [behind, hdiv, hcount]

/-- All postings in, the builder closes on the list's blocks. -/
theorem SkipBuilder.behind_blocks (h : Placed doc offset n) :
    (behind doc offset n n).closeBlock.blocks = blocksOf doc offset n := by
  have hpos := h.pos
  cases n with
  | zero => omega
  | succ i =>
    have hoff := Nat.mod_eq_of_lt (h.offset_lt (i / 128 * 128) (by omega))
    have hcount : blockCount (i + 1) = i / 128 + 1 := by
      simp only [blockCount, ceilDiv, logicalBlockSize]
      omega
    have hblock : blockOf doc offset (i + 1) (i / 128) =
        ⟨doc i, offset (i / 128 * 128), i + 1 - i / 128 * 128⟩ := by
      rw [blockOf, Nat.min_eq_right (by omega), Nat.add_sub_cancel, Nat.min_eq_right (by omega)]
    simp only [behind, closeBlock, hoff, blocksOf, hcount, range_succ,
      map_append, map_cons, map_nil, hblock]

theorem length_blocksOf : (blocksOf doc offset n).length = blockCount n := by
  simp [blocksOf]

theorem getElem?_blocksOf (hb : b < blockCount n) :
    (blocksOf doc offset n)[b]? = some (blockOf doc offset n b) := by
  simp [blocksOf, hb]

/-- A level-1 entry ends where its last block does. -/
theorem strideOf_endDocid (hs : s < countStrides (blockCount n)) :
    (strideOf (blocksOf doc offset n) s).endDocid =
      (blockOf doc offset n (min ((s + 1) * 32) (blockCount n) - 1)).endDocid := by
  have hlen : (blocksOf doc offset n).length = blockCount n := length_blocksOf
  simp only [countStrides, ceilDiv, skipLevel1Stride] at hs
  have hlast : (((blocksOf doc offset n).drop (s * 32)).take 32).getLast? =
      some (blockOf doc offset n (min ((s + 1) * 32) (blockCount n) - 1)) := by
    rw [getLast?_eq_getElem?, length_take, length_drop, hlen,
      getElem?_take_of_lt (by omega), getElem?_drop]
    rw [getElem?_blocksOf (by omega)]
    congr 2
    omega
  simp [strideOf, skipLevel1Stride, hlast]

end Blocks

/-! ## Parsing -/

theorem length_trailer (freqMode : Bool) (blocks : List SkipBlock) :
    (trailer freqMode blocks).length =
      blocks.length * entryWidth freqMode +
        (countStrides blocks.length * entryWidth freqMode + 4) := by
  have hwidth : ∀ es : List SkipBlock,
      (es.flatMap (writeEntry freqMode)).length = es.length * entryWidth freqMode :=
    fun es => Holds.length_flatMap_of_width fun e _ => length_writeEntry freqMode e
  simp [trailer, hwidth, length_leBytes, strides]

/-- The trailer says where it starts. -/
theorem SkipIndex.parse_eq (freqMode : Bool) (codec : String) (hfront : 4 ≤ front.length)
    (hpos : 0 < blocks.length) (hcount : blocks.length = blockCount count)
    (hlt : blocks.length < 2 ^ 32) :
    SkipIndex.parse (front ++ trailer freqMode blocks) count (entryWidth freqMode) freqMode codec =
      .ok (⟨front.length, blocks.length, countStrides blocks.length, entryWidth freqMode, freqMode⟩,
        front.length) := by
  have hlen := length_trailer freqMode blocks
  have htotal : (front ++ trailer freqMode blocks).length = front.length +
      (blocks.length * entryWidth freqMode +
        (countStrides blocks.length * entryWidth freqMode + 4)) := by
    rw [length_append, hlen]
  have hword : Holds (front ++ trailer freqMode blocks)
      ((front ++ trailer freqMode blocks).length - 4) (leBytes 4 (blocks.length % 2 ^ 32)) := by
    have h := ((Holds.of_eq (show front ++ trailer freqMode blocks = _ from rfl)).right.right).right
    convert h using 1
    rw [htotal]
    simp [Holds.length_flatMap_of_width fun e _ => length_writeEntry freqMode e, strides]
    omega
  have hread := hword.readWord_eq s!"corrupt postings: {codec} skip count out of bounds"
  have hmod : blocks.length % 2 ^ 32 % 256 ^ 4 = blocks.length := by omega
  rw [hmod] at hread
  have hentry : entryWidth freqMode ≤ blocks.length * entryWidth freqMode :=
    Nat.le_mul_of_pos_left _ hpos
  have hend : (front ++ trailer freqMode blocks).length -
      (4 + blocks.length * entryWidth freqMode + countStrides blocks.length * entryWidth freqMode) =
      front.length := by omega
  simp only [SkipIndex.parse, hread, ok_bind, hend, ← hcount, Nat.lt_irrefl, if_false, pure_eq_ok]
  rw [if_neg (by omega), if_neg (by omega), if_neg (by omega)]

/-! ## Landing -/

namespace SkipIndex

/-- The index describes the trailer of the list in this buffer. -/
structure Covers (idx : SkipIndex) (data : List UInt8) (doc offset : Nat → Nat) (n : Nat) :
    Prop where
  entries : Holds data idx.level0Offset
    ((blocksOf doc offset n).flatMap (writeEntry idx.withCounts) ++
      (strides (blocksOf doc offset n)).flatMap (writeEntry idx.withCounts))
  skipCount : idx.skipCount = blockCount n
  strideCount : idx.strideCount = countStrides (blockCount n)
  entryBytes : idx.entryBytes = entryWidth idx.withCounts

theorem readEntry_eq {idx : SkipIndex} (h : Holds data base (writeEntry idx.withCounts e)) :
    idx.readEntry data base = .ok (e.endDocid % 2 ^ 32, e.offset % 2 ^ 32,
      if idx.withCounts then some (e.count % 2 ^ 32) else none) := by
  have hend := h.left.left.readWord_eq skipEntry
  have hoff := h.left.right.readWord_eq skipEntry
  rw [length_leBytes] at hoff
  have hpow : 256 ^ 4 = 2 ^ 32 := by norm_num
  rw [hpow] at hend hoff
  have hcount := h.right
  simp only [length_append, length_leBytes] at hcount
  cases hc : idx.withCounts with
  | false => simp only [readEntry, hend, hoff, ok_bind, hc, Bool.false_eq_true, if_false, pure_eq_ok]
  | true =>
    rw [hc, if_pos rfl] at hcount
    have hread := hcount.readWord_eq skipEntry
    rw [hpow] at hread
    simp [readEntry, hend, hoff, ok_bind, hc, hread, pure_eq_ok]

section

variable (h : Covers idx data doc offset n)

include h

variable (hp : Placed doc offset n)

include hp

theorem Covers.block_eq {b : Nat} (hb : b < blockCount n) :
    idx.block data b = .ok (doc (min ((b + 1) * 128) n - 1), offset (b * 128),
      if idx.withCounts then some (min 128 (n - b * 128)) else none) := by
  have hn := hp.count_lt
  have hpos := hp.pos
  have hb' : b * 128 < n := by
    simp only [blockCount, ceilDiv, logicalBlockSize] at hb
    omega
  have hentry := h.entries.left.entry (fun e _ => length_writeEntry idx.withCounts e)
    (getElem?_blocksOf hb)
  have hcount : min 128 (n - b * 128) % 2 ^ 32 = min 128 (n - b * 128) := by omega
  rw [block, h.entryBytes, readEntry_eq hentry, blockOf, Nat.mod_eq_of_lt (hp.doc_lt _ (by omega)),
    Nat.mod_eq_of_lt (hp.offset_lt _ hb'), hcount]

theorem Covers.stride_eq {s : Nat} (hs : s < countStrides (blockCount n)) :
    ∃ o c, idx.stride data s =
      .ok (doc (min ((min ((s + 1) * 32) (blockCount n) - 1 + 1) * 128) n - 1), o, c) := by
  have hpos := hp.pos
  have hget : (strides (blocksOf doc offset n))[s]? = some (strideOf (blocksOf doc offset n) s) := by
    simp [strides, length_blocksOf, hs]
  have hwidth : ((blocksOf doc offset n).flatMap (writeEntry idx.withCounts)).length =
      idx.skipCount * idx.entryBytes := by
    rw [Holds.length_flatMap_of_width fun e _ => length_writeEntry idx.withCounts e,
      length_blocksOf, h.skipCount, h.entryBytes]
  have hentry := h.entries.right.entry (fun e _ => length_writeEntry idx.withCounts e) hget
  rw [hwidth, ← h.entryBytes] at hentry
  rw [stride, readEntry_eq hentry, strideOf_endDocid hs, blockOf,
    Nat.mod_eq_of_lt (hp.doc_lt _ (by omega))]
  exact ⟨_, _, rfl⟩

/-- Full blocks count 128 postings each. -/
theorem Covers.countPostings_eq (hc : idx.withCounts = true)
    (hfull : ∀ b ∈ blocks, (b + 1) * 128 ≤ n) (hlt : start + blocks.length * 128 < 2 ^ 32) :
    idx.countPostings data start blocks = .ok (start + blocks.length * 128) := by
  induction blocks generalizing start with
  | nil => simp [countPostings]
  | cons b blocks ih =>
    have hb := hfull b (by simp)
    have hblock := h.block_eq hp (show b < blockCount n by
      simp only [blockCount, ceilDiv, logicalBlockSize]
      omega)
    simp only [length_cons] at hlt
    have hnext : (start + min 128 (n - b * 128)) % 2 ^ 32 = start + 128 := by omega
    have htail := ih (fun b hb => hfull b (by simp [hb]))
      (show start + 128 + blocks.length * 128 < 2 ^ 32 by omega)
    have htotal : start + 128 + blocks.length * 128 = start + (blocks.length + 1) * 128 := by omega
    rw [countPostings, htotal] at htail
    rw [countPostings, foldlM_cons]
    simp only [hblock, hc, if_true, ok_bind, Option.getD_some, hnext, pure_eq_ok, length_cons]
    exact htail

/-- The first stride that reaches the target. -/
theorem Covers.search_strides (target : Nat) :
    ∃ lo, lowerBound (fun mid => do
        let (endDocid, _, _) ← idx.stride data mid
        return decide (endDocid < target)) 0 idx.strideCount = .ok lo ∧
      (0 < lo → lo * 32 < blockCount n → doc (lo * 32 * 128 - 1) < target) := by
  have hpos := hp.pos
  have htest : ∀ s, 0 ≤ s → s < idx.strideCount → (do
        let (endDocid, _, _) ← idx.stride data s
        return decide (endDocid < target) : Except String Bool) =
      .ok (decide (doc (min ((min ((s + 1) * 32) (blockCount n) - 1 + 1) * 128) n - 1) < target)) := by
    intro s _ hs
    obtain ⟨o, c, hstride⟩ := h.stride_eq hp (h.strideCount ▸ hs)
    simp only [hstride, ok_bind, pure_eq_ok]
  obtain ⟨lo, hlo, -, hle, hbelow, -⟩ := lowerBound_spec (Nat.zero_le idx.strideCount) htest
    (fun i j hij _ hlt => Nat.lt_of_le_of_lt (hp.doc_le (by omega) (by omega)) hlt)
  refine ⟨lo, hlo, ?_⟩
  intro hpos' hlt
  have hend := hbelow (lo - 1) (Nat.zero_le _) (by omega)
  have hblocks : lo * 32 * 128 < n := by
    simp only [blockCount, ceilDiv, logicalBlockSize] at hlt
    omega
  rw [show lo - 1 + 1 = lo by omega, Nat.min_eq_left hlt.le, show lo * 32 - 1 + 1 = lo * 32 by omega,
    Nat.min_eq_left hblocks.le] at hend
  exact hend

/-- The first block from a stride on that reaches the target. -/
theorem Covers.search_blocks (target start : Nat) :
    ∃ blo, lowerBound (fun mid => do
        let (endDocid, _, _) ← idx.block data mid
        return decide (endDocid < target)) start (min idx.skipCount (start + skipLevel1Stride)) =
          .ok blo ∧
      start ≤ blo ∧ (start < blo → blo < blockCount n → doc (blo * 128 - 1) < target) := by
  have hpos := hp.pos
  by_cases hle : start ≤ min idx.skipCount (start + skipLevel1Stride)
  · have htest : ∀ b, start ≤ b → b < min idx.skipCount (start + skipLevel1Stride) → (do
          let (endDocid, _, _) ← idx.block data b
          return decide (endDocid < target) : Except String Bool) =
        .ok (decide (doc (min ((b + 1) * 128) n - 1) < target)) := by
      intro b _ hb
      have hb' : b < blockCount n := by
        rw [← h.skipCount]
        omega
      simp only [h.block_eq hp hb', ok_bind, pure_eq_ok]
    obtain ⟨blo, hblo, hge, -, hbelow, -⟩ := lowerBound_spec hle htest
      (fun i j hij _ hlt => Nat.lt_of_le_of_lt (hp.doc_le (by omega) (by omega)) hlt)
    refine ⟨blo, hblo, hge, ?_⟩
    intro hlt hcount
    have hend := hbelow (blo - 1) (by omega) (by omega)
    have hblocks : blo * 128 < n := by
      simp only [blockCount, ceilDiv, logicalBlockSize] at hcount
      omega
    rw [show blo - 1 + 1 = blo by omega, Nat.min_eq_left hblocks.le] at hend
    exact hend
  · exact ⟨start, by rw [lowerBound, if_neg (by omega)], Nat.le_refl _, fun h => absurd h (Nat.lt_irrefl _)⟩

/-- In frequency mode the stored counts agree with the position. -/
theorem Covers.counted_eq (hc : idx.withCounts = true) (hblo : blo * 128 < n) :
    idx.countPostings data (blo / skipLevel1Stride * skipLevel1Stride * logicalBlockSize % 2 ^ 32)
      ((List.range (blo - blo / skipLevel1Stride * skipLevel1Stride)).map
        (blo / skipLevel1Stride * skipLevel1Stride + ·)) = .ok (blo * 128) := by
  have hn := hp.count_lt
  simp only [skipLevel1Stride, logicalBlockSize]
  have hstart : blo / 32 * 32 * 128 % 2 ^ 32 = blo / 32 * 32 * 128 := by omega
  rw [hstart, h.countPostings_eq hp hc]
  · rw [length_map, length_range]
    congr 1
    omega
  · intro b hb
    obtain ⟨i, hi, rfl⟩ := mem_map.mp hb
    have := mem_range.mp hi
    omega
  · rw [length_map, length_range]
    omega

/-- A landing is the start of a block ahead, and everything before it is below
the target. -/
theorem Covers.jumpLanding_spec (target current : Nat) :
    ∃ ans, idx.jumpLanding data target current = .ok ans ∧
      ∀ x, ans = some x → ∃ b, b * 128 < n ∧
        x = (offset (b * 128), b * 128, if b = 0 then 0 else doc (b * 128 - 1)) ∧
        current < offset (b * 128) ∧ (0 < b → doc (b * 128 - 1) < target) := by
  have hn := hp.count_lt
  unfold jumpLanding
  by_cases hnone : idx.skipCount = 0 ∨ target = 0
  · exact ⟨none, by simp only [if_pos hnone, pure_eq_ok], nofun⟩
  obtain ⟨lo, hlo, hlo'⟩ := h.search_strides hp target
  obtain ⟨blo, hblo, hge, hblo'⟩ := h.search_blocks hp target (lo * skipLevel1Stride)
  simp only [if_neg hnone, hlo, hblo, ok_bind]
  by_cases hend : idx.skipCount ≤ blo
  · exact ⟨none, by simp only [if_pos hend, pure_eq_ok], nofun⟩
  have hcount : blo < blockCount n := by
    rw [← h.skipCount]
    omega
  have hstart : blo * 128 < n := by
    simp only [blockCount, ceilDiv, logicalBlockSize] at hcount
    omega
  simp only [if_neg hend, h.block_eq hp hcount, ok_bind]
  by_cases hback : offset (blo * 128) ≤ current
  · exact ⟨none, by simp only [if_pos hback, pure_eq_ok], nofun⟩
  have hposBefore : blo * logicalBlockSize % 2 ^ 32 = blo * 128 := by
    simp only [logicalBlockSize]
    omega
  have hbelow : 0 < blo → doc (blo * 128 - 1) < target := by
    intro hpos
    by_cases hfirst : lo * skipLevel1Stride < blo
    · exact hblo' hfirst hcount
    -- the landing block opens its stride: the stride before ends below
    have heq : blo = lo * 32 := by
      simp only [skipLevel1Stride] at hge hfirst
      omega
    rw [heq]
    exact hlo' (by omega) (heq ▸ hcount)
  refine ⟨some (offset (blo * 128), blo * 128, if blo = 0 then 0 else doc (blo * 128 - 1)), ?_, ?_⟩
  · simp only [if_neg hback, hposBefore]
    have hprev : blo ≠ 0 → idx.block data (blo - 1) = .ok (doc (blo * 128 - 1),
        offset ((blo - 1) * 128),
        if idx.withCounts then some (min 128 (n - (blo - 1) * 128)) else none) := by
      intro hne
      rw [h.block_eq hp (show blo - 1 < blockCount n by omega), show blo - 1 + 1 = blo by omega,
        Nat.min_eq_left hstart.le]
    cases hc : idx.withCounts with
    | false =>
      by_cases hz : blo = 0
      · simp [hz]
      · simp [hz, hprev hz]
    | true =>
      simp only [h.counted_eq hp hc hstart, ok_bind, if_true, ne_eq, not_true_eq_false, if_false]
      by_cases hz : blo = 0
      · simp [hz]
      · simp [hz, hprev hz]
  · intro x hx
    exact ⟨blo, hstart, (Option.some.inj hx).symm, Nat.not_le.mp hback, hbelow⟩

end

end SkipIndex

end Gleaph.Postings
