import Gleaph.Postings.Frame

/-!
# Gleaph.Postings.Frame.Sound

The frame-of-reference reader tracks the encoded list: every block decodes to
its chunk of the list, and the search for a target starts at a block with only
smaller docids before it.
-/

namespace Gleaph.Postings

open List

/-! ## One block -/

section Block

variable {block : List Nat}

/-- The first value of a block is its least. -/
theorem headD_le_of_mem (h : block.Pairwise (· < ·)) (hv : v ∈ block) : block.headD 0 ≤ v := by
  cases block with
  | nil => simp at hv
  | cons x xs =>
    cases hv with
    | head => exact Nat.le_refl _
    | tail _ hv => exact (rel_of_pairwise_cons h hv).le

/-- It fits `u32`, also for the empty block. -/
theorem headD_lt (h : ∀ v ∈ block, v < 2 ^ 32) : block.headD 0 < 2 ^ 32 := by
  cases block with
  | nil => simp
  | cons x xs => exact h x (by simp)

/-- The last value of a block is its greatest. -/
theorem le_getLastD_of_mem (h : block.Pairwise (· < ·)) (hv : v ∈ block) :
    v ≤ block.getLastD 0 := by
  induction block using List.reverseRecOn with
  | nil => simp at hv
  | append_singleton xs x ih =>
    rw [getLastD_concat]
    cases mem_append.mp hv with
    | inl hv => exact ((pairwise_append.mp h).2.2 v hv x (by simp)).le
    | inr hv => exact (mem_singleton.mp hv).le

/-- Every distance fits the block's width. -/
theorem distance_lt (h : block.Pairwise (· < ·)) :
    ∀ v ∈ block.map (fun v => v - block.headD 0), v < 2 ^ blockBits block := by
  intro d hd
  obtain ⟨v, hv, rfl⟩ := mem_map.mp hd
  have hlow := headD_le_of_mem h hv
  have hhigh := le_getLastD_of_mem h hv
  simp only [blockBits]
  by_cases hspan : block.getLastD 0 - block.headD 0 = 0
  · simp only [if_pos hspan, Nat.pow_zero]
    omega
  rw [if_neg hspan]
  have : block.getLastD 0 - block.headD 0 < 2 ^ ((block.getLastD 0 - block.headD 0).log2 + 1) :=
    Nat.lt_log2_self
  omega

/-- A block of `u32` values never needs more than 32 bits a value. -/
theorem blockBits_le (h : ∀ v ∈ block, v < 2 ^ 32) : blockBits block ≤ 32 := by
  have hlast : block.getLastD 0 < 2 ^ 32 := by
    cases block using List.reverseRecOn with
    | nil => simp
    | append_singleton xs x =>
      rw [getLastD_concat]
      exact h x (by simp)
  simp only [blockBits]
  split
  · omega
  rename_i hspan
  have : (block.getLastD 0 - block.headD 0).log2 < 32 := (Nat.log2_lt hspan).mpr (by omega)
  omega

end Block

/-! ## The layout -/

/-- A table of starts reads back. -/
theorem readU32_starts {f : List Nat → List UInt8}
    (h : Holds data off (((List.range n).map fun b => startOf f es b % 2 ^ 32).flatMap (leBytes 4)))
    (hlt : ∀ b, b < n → startOf f es b < 2 ^ 32) :
    (List.range n).mapM (fun b => readU32 data (off + b * 4)) =
      .ok ((List.range n).map (startOf f es)) := by
  refine mapM_eq_ok fun b hb => ?_
  have hentry := h.entry (fun n _ => length_leBytes 4 n)
    (show _[b]? = some (startOf f es b % 2 ^ 32) by simp [mem_range.mp hb])
  rw [readU32, hentry.readWord_eq headerField]
  congr 1
  have := hlt b (mem_range.mp hb)
  omega

/-- The loop over the blocks writes the descriptors, the starts and the payloads
one after another. -/
theorem encodeBlocks_eq (blocks : List (List Nat)) :
    encodeBlocks blocks = (blocks.flatMap blockDescriptor,
      (List.range blocks.length).map (fun b => startOf blockPayload blocks b % 2 ^ 32),
      blocks.flatMap blockPayload) := by
  induction blocks using List.reverseRecOn with
  | nil => rfl
  | append_singleton blocks block ih =>
    rw [encodeBlocks] at ih ⊢
    rw [foldl_append, ih, startOf_concat]
    simp

section Layout

variable {docs : List Nat} (h : DocList docs)

include h

/-- A block of increasing docids is increasing. -/
theorem DocList.chunk_increasing (k b : Nat) : (chunk k docs b).Pairwise (· < ·) :=
  h.increasing.sublist ((take_sublist _ _).trans (drop_sublist _ _))

/-- And its docids fit `u32`. -/
theorem DocList.chunk_lt (k b : Nat) : ∀ v ∈ chunk k docs b, v < 2 ^ 32 :=
  fun v hv => h.docid_lt v (mem_of_mem_drop (mem_of_mem_take hv))

/-- The starts of the blocks fit the `u32` they are stored in. -/
theorem DocList.blockStart_lt (hb : b ≤ ceilDiv docs.length 128) :
    startOf blockPayload (chunks 128 docs) b < 2 ^ 32 := by
  have hle : startOf blockPayload (chunks 128 docs) b ≤ 512 * b := by
    refine startOf_le ?_ (by rw [length_chunks]; exact hb)
    intro block hblock
    obtain ⟨b, -, rfl⟩ := mem_map.mp hblock
    have hbits := blockBits_le (h.chunk_lt 128 b)
    have hlen : (chunk 128 docs b).length ≤ 128 := by rw [length_chunk]; omega
    have := Nat.mul_le_mul hbits hlen
    rw [blockPayload, (leValue_pack hbits (distance_lt (h.chunk_increasing 128 b))).2, length_map]
    omega
  have := h.length_lt
  simp only [ceilDiv] at hb
  omega

end Layout

/-! ## The reader's state -/

namespace ForReader

variable {docs : List Nat}

/-- The tables of the list, an index into it, and a decoded block or none. -/
structure Inv (docs : List Nat) (r : ForReader) : Prop where
  count : r.count = docs.length
  bases : r.bases = (chunks 128 docs).map (·.headD 0)
  widths : r.widths = (chunks 128 docs).map blockBits
  offsets : r.offsets =
    (List.range (ceilDiv docs.length 128 + 1)).map (startOf blockPayload (chunks 128 docs))
  payload : Holds r.data r.headerEnd ((chunks 128 docs).flatMap blockPayload)
  pos_le : r.pos ≤ docs.length
  cached : r.cachedBlock = 2 ^ 32 - 1 ∨
    r.cachedBlock < ceilDiv docs.length 128 ∧ r.cache = chunk 128 docs r.cachedBlock

/-- Where an encoded list keeps its tables. -/
structure Layout (docs : List Nat) (data : List UInt8) : Prop where
  count : readU32 data 0 = .ok docs.length
  blocks : readU32 data 4 = .ok (ceilDiv docs.length 128)
  descriptors : Holds data 8 ((chunks 128 docs).flatMap blockDescriptor)
  offsets : Holds data (8 + ceilDiv docs.length 128 * 5)
    (((List.range (ceilDiv docs.length 128 + 1)).map
      fun b => startOf blockPayload (chunks 128 docs) b % 2 ^ 32).flatMap (leBytes 4))
  payload : Holds data (8 + ceilDiv docs.length 128 * 5 + (ceilDiv docs.length 128 + 1) * 4)
    ((chunks 128 docs).flatMap blockPayload)

/-- A hit is the first cached value from the start on that is not below the
target. -/
theorem scanCache_some {cache : List Nat} (h : scanCache cache target start = some (i, v)) :
    start ≤ i ∧ cache[i]? = some v ∧ target ≤ v ∧
      ∀ j w, start ≤ j → j < i → cache[j]? = some w → w < target := by
  simp only [scanCache, Option.map_eq_some_iff, Prod.mk.injEq] at h
  obtain ⟨i', hfind, rfl, rfl⟩ := h
  rw [find?_range'_eq_some] at hfind
  obtain ⟨hle, hmem, hbefore⟩ := hfind
  rw [mem_range'_1] at hmem
  have hlt : i' < cache.length := by omega
  refine ⟨hmem.1, by simp [hlt], by simpa using hle, ?_⟩
  intro j w hj hji hw
  have := hbefore j hj hji
  simpa [hw] using this

/-- Without a hit every cached value from the start on is below the target. -/
theorem scanCache_none {cache : List Nat} (h : scanCache cache target start = none) :
    ∀ j w, start ≤ j → cache[j]? = some w → w < target := by
  simp only [scanCache, Option.map_eq_none_iff, List.find?_eq_none, List.mem_range'_1] at h
  intro j w hj hw
  have hlt := (List.getElem?_eq_some_iff.mp hw).1
  have := h j ⟨hj, by omega⟩
  simpa [hw] using this

/-- What `locate` answers: where an advance lands, with the docid there. -/
def Located (docs : List Nat) (target pos : Nat) : Option (Nat × Nat) → Prop
  | some (j, v) => docs[j]? = some v ∧ Lands docs target pos j
  | none => Lands docs target pos docs.length

/-- Blocks before the count of small minima start at or below the target. -/
theorem le_of_lt_length_takeWhile {xs : List Nat} (hb : b < (xs.takeWhile (· ≤ target)).length)
    (hx : xs[b]? = some x) : x ≤ target := by
  rw [← takeWhile_append_dropWhile (p := fun x => decide (x ≤ target)) (l := xs),
    getElem?_append_left hb] at hx
  simpa using mem_takeWhile_imp (mem_of_getElem? hx)

variable (h : DocList docs)

include h

/-- The bytes of an encoded list are the header, the tables and the payload, in
that order. -/
theorem layout {data : List UInt8}
    (hdata : encodeFrameOfReference docs = .ok data) : Layout docs data := by
  have hn := h.length_lt
  have hB : ceilDiv docs.length 128 < 2 ^ 32 := by
    simp only [ceilDiv]
    omega
  have hlenChunks : (chunks 128 docs).length = ceilDiv docs.length 128 := length_chunks
  rw [encodeFrameOfReference, h.assertStrictlyIncreasing, encodeBlocks_eq] at hdata
  simp only [ok_bind, pure_eq_ok, Except.ok.injEq, forBlockSize, startOf_range] at hdata
  rw [hlenChunks] at hdata
  have h0 := Holds.of_eq hdata.symm
  have hwidth : ∀ b ∈ chunks 128 docs, (blockDescriptor b).length = 5 := by
    intro b _
    simp [blockDescriptor]
  have hcount := h0.left.readWord_eq headerField
  have hblocks := h0.right.left.readWord_eq headerField
  have hdesc := h0.right.right.left
  have htab := h0.right.right.right.left
  have hpay := h0.right.right.right.right
  simp only [length_leBytes, Holds.length_flatMap_of_width hwidth, hlenChunks, Nat.zero_add,
    Holds.length_flatMap_of_width (fun n _ => length_leBytes 4 n), length_map,
    length_range] at hblocks hdesc htab hpay
  refine ⟨hcount.trans ?_, hblocks.trans ?_, hdesc, htab, hpay⟩
  · congr 1
    omega
  · congr 1
    omega

/-- A fresh reader over an encoded list. -/
theorem new_eq {data : List UInt8} (hdata : Layout docs data) :
    ∃ r, ForReader.new data = .ok r ∧ Inv docs r ∧ r.pos = 0 := by
  have hn := h.length_lt
  have hpos := h.nonempty
  have hcover : ¬ (ceilDiv docs.length 128 = 0 ∨
      docs.length ≤ (ceilDiv docs.length 128 - 1) * forBlockSize) := by
    simp only [ceilDiv, forBlockSize]
    omega
  have hlen := hdata.payload.le
  have hwidth : ∀ b ∈ chunks 128 docs, (blockDescriptor b).length = 5 := by
    intro b _
    simp [blockDescriptor]
  have hbases : (List.range (ceilDiv docs.length 128)).mapM (fun b => readU32 data (8 + b * 5)) =
      .ok ((List.range (ceilDiv docs.length 128)).map fun b => (chunk 128 docs b).headD 0) := by
    refine mapM_eq_ok fun b hb => ?_
    have hentry := hdata.descriptors.entry hwidth (getElem?_chunks (mem_range.mp hb))
    rw [readU32, hentry.left.readWord_eq headerField]
    congr 1
    exact Nat.mod_eq_of_lt (headD_lt (h.chunk_lt 128 b))
  have hwidths : (List.range (ceilDiv docs.length 128)).mapM
      (fun b => UInt8.toNat <$> expect "index out of bounds" data[8 + b * 5 + 4]?) =
      .ok ((List.range (ceilDiv docs.length 128)).map fun b => blockBits (chunk 128 docs b)) := by
    refine mapM_eq_ok fun b hb => ?_
    have hentry := hdata.descriptors.entry hwidth (getElem?_chunks (mem_range.mp hb))
    have hbits := blockBits_le (h.chunk_lt 128 b)
    have hbyte := hentry.right.head
    rw [length_leBytes] at hbyte
    rw [hbyte, expect_some, Except.map_ok]
    congr 1
    rw [UInt8.toNat_ofNat']
    omega
  have hoffsets := readU32_starts hdata.offsets fun b hb => h.blockStart_lt (Nat.le_of_lt_succ hb)
  refine ⟨⟨data, 8 + ceilDiv docs.length 128 * 5 + (ceilDiv docs.length 128 + 1) * 4, docs.length,
    (List.range (ceilDiv docs.length 128)).map fun b => (chunk 128 docs b).headD 0,
    (List.range (ceilDiv docs.length 128)).map fun b => blockBits (chunk 128 docs b),
    (List.range (ceilDiv docs.length 128 + 1)).map (startOf blockPayload (chunks 128 docs)), 0, 2 ^ 32 - 1, []⟩,
    ?_, ?_, rfl⟩
  · simp only [new, if_neg (show ¬ data.length < 8 by omega), hdata.count, hdata.blocks, ok_bind,
      if_neg hcover, hbases, hwidths, hoffsets, pure_eq_ok,
      if_neg (show ¬ data.length < 8 + ceilDiv docs.length 128 * 5 +
        (ceilDiv docs.length 128 + 1) * 4 by omega)]
  exact
    { count := rfl
      bases := by simp [chunks]
      widths := by simp [chunks]
      offsets := rfl
      payload := hdata.payload
      pos_le := Nat.zero_le _
      cached := Or.inl rfl }

variable {r : ForReader} (hr : Inv docs r)

include hr

/-- A block decodes to its chunk of the list. -/
theorem Inv.ensureBlock_eq (hb : b < ceilDiv docs.length 128) :
    ∃ r', r.ensureBlock b = .ok r' ∧ Inv docs r' ∧ r'.pos = r.pos ∧
      r'.cache = chunk 128 docs b := by
  have hn := h.length_lt
  by_cases hcached : r.cachedBlock = b
  · refine ⟨r, by rw [ensureBlock, if_pos hcached]; rfl, hr, rfl, ?_⟩
    cases hr.cached with
    | inl hnone =>
      simp only [ceilDiv] at hb
      omega
    | inr hsome => rw [hsome.2, hcached]
  have hchunk := getElem?_chunks hb
  have hlenChunks : (chunks 128 docs).length = ceilDiv docs.length 128 := length_chunks
  obtain ⟨hstart, hstop, hslice⟩ := hr.payload.slice_starts hr.offsets hb hchunk
  have hbase : r.bases[b]? = some ((chunk 128 docs b).headD 0) := by
    rw [hr.bases, getElem?_map, hchunk, Option.map_some]
  have hwidth : r.widths[b]? = some (blockBits (chunk 128 docs b)) := by
    rw [hr.widths, getElem?_map, hchunk, Option.map_some]
  have helems : (if b = r.bases.length - 1 then r.count - (r.bases.length - 1) * forBlockSize
      else forBlockSize) = (chunk 128 docs b).length := by
    rw [length_chunk, hr.bases, length_map, hlenChunks, hr.count, forBlockSize]
    by_cases hlast : b = ceilDiv docs.length 128 - 1
    · rw [if_pos hlast, hlast]
      simp only [ceilDiv]
      omega
    · rw [if_neg hlast]
      simp only [ceilDiv] at hb hlast
      omega
  have hcache : (List.range (chunk 128 docs b).length).mapM (fun i => do
      let value ← readBits (blockPayload (chunk 128 docs b)) (i * blockBits (chunk 128 docs b))
        (blockBits (chunk 128 docs b))
      return ((chunk 128 docs b).headD 0 + value) % 2 ^ 32 : Nat → Except String Nat) =
      .ok (chunk 128 docs b) := by
    rw [mapM_eq_ok (g := fun i => (chunk 128 docs b).getD i 0)]
    · congr 1
      exact ext_getElem (by simp) (by simp +contextual)
    intro i hi
    have hget := getElem?_eq_getElem (mem_range.mp hi)
    have hmem := getElem_mem (mem_range.mp hi)
    have hle := headD_le_of_mem (h.chunk_increasing 128 b) hmem
    have hlt := h.chunk_lt 128 b _ hmem
    rw [blockPayload, readBits_pack (blockBits_le (h.chunk_lt 128 b))
      (distance_lt (h.chunk_increasing 128 b)) (by rw [getElem?_map, hget]; rfl), ok_bind,
      Nat.add_sub_cancel' hle, Nat.mod_eq_of_lt hlt, getD_eq_getElem?_getD, hget]
    rfl
  refine ⟨⟨r.data, r.headerEnd, r.count, r.bases, r.widths, r.offsets, r.pos, b, chunk 128 docs b⟩,
    ?_, ?_, rfl, rfl⟩
  · simp only [ensureBlock, if_neg hcached, hstart, hstop, expect_some, ok_bind, hslice, helems, hbase,
      hwidth]
    rw [hcache]
    rfl
  · exact { hr with cached := Or.inr ⟨hb, rfl⟩ }

/-- A peek answers the docid at the position and stays there. -/
theorem Inv.peek_eq :
    ∃ r', r.peek = .ok (docs[r.pos]?, r') ∧ Inv docs r' ∧ r'.pos = r.pos := by
  rw [peek, hr.count]
  by_cases hend : docs.length ≤ r.pos
  · exact ⟨r, by simp [hend], hr, rfl⟩
  have hb : r.pos / 128 < ceilDiv docs.length 128 := by
    simp only [ceilDiv]
    omega
  obtain ⟨r', hr', hinv, hpos, hcache⟩ := hr.ensureBlock_eq h hb
  have hget : r'.cache[r.pos % 128]? = some docs[r.pos] := by
    rw [hcache, getElem?_chunk (Nat.mod_lt _ (by decide)), Nat.div_add_mod',
      getElem?_eq_getElem]
  refine ⟨r', ?_, hinv, hpos⟩
  simp only [if_neg hend, forBlockSize, hr', ok_bind, hpos, hget, expect_some, pure_eq_ok]
  rw [getElem?_eq_getElem]

/-- `next` answers the docid at the position and moves on by one, up to the end.
-/
theorem Inv.next_eq :
    ∃ r', r.next = .ok (docs[r.pos]?, r') ∧ Inv docs r' ∧ r'.pos = min (r.pos + 1) docs.length := by
  obtain ⟨r', hr', hinv, hpos⟩ := hr.peek_eq h
  have hn := h.length_lt
  cases hd : docs[r.pos]? with
  | none =>
    have hge := getElem?_eq_none_iff.mp hd
    have hle := hr.pos_le
    exact ⟨r', by simp [next, hr', hd], hinv, by omega⟩
  | some d =>
    have hlt := (List.getElem?_eq_some_iff.mp hd).1
    have hstep : (r'.pos + 1) % 2 ^ 32 = min (r.pos + 1) docs.length := by omega
    refine ⟨{ r' with pos := (r'.pos + 1) % 2 ^ 32 }, by simp [next, hr', hd], ?_, hstep⟩
    exact { hinv with pos_le := by simp only; omega }

/-! ## The search -/

/-- The search from a block on that has only smaller docids before it. -/
theorem Inv.locateLoop_eq (target : Nat) (hlt : r.pos < docs.length)
    (hb : block < ceilDiv docs.length 128) (hfrontier : r.pos / 128 ≤ block)
    (hfuel : fuel = ceilDiv docs.length 128 - block)
    (hbelow : ∀ i d, r.pos ≤ i → i < block * 128 → docs[i]? = some d → d < target) :
    ∃ ans r', locateLoop target (r.pos / 128) fuel block r = .ok (ans, r') ∧ Inv docs r' ∧
      r'.pos = r.pos ∧ Located docs target r.pos ans := by
  induction fuel generalizing block r with
  | zero => omega
  | succ fuel ih =>
    have hn := h.length_lt
    obtain ⟨r1, hr1, hinv1, hpos1, hcache⟩ := hr.ensureBlock_eq h hb
    have hbases : r1.bases.length = ceilDiv docs.length 128 := by
      rw [hinv1.bases, length_map, length_chunks]
    -- the scan starts at the frontier or at the block
    obtain ⟨start, hstart, hge, hstart', hskip⟩ : ∃ start,
        (if block = r.pos / 128 then r1.pos % forBlockSize else 0) = start ∧
        r.pos ≤ block * 128 + start ∧ start < 128 ∧
        ∀ i d, r.pos ≤ i → i < block * 128 + start → docs[i]? = some d → d < target := by
      by_cases heq : block = r.pos / 128
      · refine ⟨r.pos % 128, by rw [if_pos heq, hpos1, forBlockSize], by omega, by omega, ?_⟩
        intro i d hi hi' _
        omega
      · exact ⟨0, by rw [if_neg heq], by omega, by omega, hbelow⟩
    have hdoc : ∀ j, j < 128 → (chunk 128 docs block)[j]? = docs[block * 128 + j]? :=
      fun j hj => getElem?_chunk hj
    rw [locateLoop, hr1, ok_bind]
    simp only [hstart, hcache]
    cases hscan : scanCache (chunk 128 docs block) target start with
    | some x =>
      obtain ⟨i, v⟩ := x
      obtain ⟨hle, hget, hreach, hbefore⟩ := scanCache_some hscan
      have hi : i < 128 := by
        have := (List.getElem?_eq_some_iff.mp hget).1
        rw [length_chunk] at this
        omega
      rw [hdoc i hi] at hget
      have hlt' := (List.getElem?_eq_some_iff.mp hget).1
      have hmod : (block * forBlockSize + i) % 2 ^ 32 = block * 128 + i := by
        rw [forBlockSize]
        omega
      refine ⟨some (block * 128 + i, v), r1, by simp only [hmod, pure_eq_ok], hinv1, hpos1, hget, ?_⟩
      refine ⟨by omega, hlt'.le, ?_, fun d hd => ?_⟩
      · intro j d hj hj' hd
        by_cases hs : j < block * 128 + start
        · exact hskip j d hj hs hd
        · refine hbefore (j - block * 128) d (by omega) (by omega) ?_
          rw [hdoc _ (by omega), Nat.add_sub_cancel' (by omega), hd]
      · rw [hget, Option.some.injEq] at hd
        omega
    | none =>
      have hnone := scanCache_none hscan
      have hblock : ∀ i d, r.pos ≤ i → i < (block + 1) * 128 → docs[i]? = some d → d < target := by
        intro j d hj hj' hd
        by_cases hs : j < block * 128 + start
        · exact hskip j d hj hs hd
        · refine hnone (j - block * 128) d (by omega) ?_
          rw [hdoc _ (by omega), Nat.add_sub_cancel' (by omega), hd]
      by_cases hend : r1.bases.length ≤ block + 1
      · refine ⟨none, r1, by simp [hend], hinv1, hpos1, ?_⟩
        rw [hbases] at hend
        refine ⟨hlt.le, Nat.le_refl _, ?_, by simp⟩
        intro i d hi hi' hd
        refine hblock i d hi ?_ hd
        simp only [ceilDiv] at hend
        omega
      · rw [hbases] at hend
        obtain ⟨ans, r2, hr2, hinv2, hpos2, hloc⟩ := ih hinv1 (by omega)
          (show block + 1 < ceilDiv docs.length 128 by omega) (by omega) (by omega)
          (by rw [hpos1]; exact hblock)
        rw [hpos1] at hr2 hpos2 hloc
        refine ⟨ans, r2, ?_, hinv2, hpos2, hloc⟩
        simp only [hbases, if_neg hend, hr2]

/-- The last block whose first docid does not exceed the target has only
smaller docids before it. -/
theorem Inv.below_start {target i d : Nat}
    (hi : i < ((r.bases.takeWhile (· ≤ target)).length - 1) * 128) (hd : docs[i]? = some d) :
    d < target := by
  have hlen := (takeWhile_sublist (l := r.bases) fun x => decide (x ≤ target)).length_le
  have hidx : (r.bases.takeWhile (· ≤ target)).length - 1 <
      (r.bases.takeWhile (· ≤ target)).length := by omega
  have hbases : r.bases.length = ceilDiv docs.length 128 := by
    rw [hr.bases, length_map, length_chunks]
  generalize (r.bases.takeWhile (· ≤ target)).length - 1 = b at hi hidx
  have hb : b < ceilDiv docs.length 128 := by omega
  have hlt : b * 128 < docs.length := (lt_ceilDiv_iff (by decide)).mp hb
  have hfirst : docs[b * 128]? = some ((chunk 128 docs b).headD 0) := by
    rw [headD_eq_head?_getD, head?_eq_getElem?, getElem?_chunk (by decide), Nat.add_zero,
      getElem?_eq_getElem hlt, Option.getD_some]
  have hbase : r.bases[b]? = some ((chunk 128 docs b).headD 0) := by
    rw [hr.bases, getElem?_map, getElem?_chunks hb, Option.map_some]
  exact Nat.lt_of_lt_of_le (h.lt_of_getElem? hi hd hfirst) (le_of_lt_length_takeWhile hidx hbase)

/-- `locate` finds the first docid from the position on that is not below the
target. -/
theorem Inv.locate_eq (target : Nat) :
    ∃ ans r', r.locate target = .ok (ans, r') ∧ Inv docs r' ∧ Located docs target r.pos ans := by
  obtain ⟨r1, hr1, hinv1, hpos1⟩ := hr.peek_eq h
  rw [locate, hr1, ok_bind]
  obtain ⟨hd, hge, hstay⟩ | ⟨d, hd, hlt, ⟨hreach, hstay⟩ | hlow⟩ :=
    Lands.here_or_below hr.pos_le target
  · have heq : r.pos = docs.length := Nat.le_antisymm hr.pos_le hge
    exact ⟨none, r1, by simp [hinv1.count, hpos1, hge], hinv1, heq ▸ hstay⟩
  · exact ⟨some (r.pos, d), r1, by simp [hd, Option.filter_some, hreach, hpos1], hinv1, hd, hstay⟩
  have hbases : r1.bases.length = ceilDiv docs.length 128 := by
    rw [hinv1.bases, length_map, length_chunks]
  have hfrontier : r1.pos / 128 < ceilDiv docs.length 128 := by
    rw [hpos1]
    simp only [ceilDiv]
    omega
  have hpp := (takeWhile_sublist (l := r1.bases) fun x => decide (x ≤ target)).length_le
  obtain ⟨ans, r2, hr2, hinv2, -, hloc⟩ := hinv1.locateLoop_eq h target (by omega)
    (show max ((r1.bases.takeWhile (· ≤ target)).length - 1) (r1.pos / 128) <
      ceilDiv docs.length 128 by omega)
    (by omega) rfl (by
      intro i d' hi hi' hd'
      refine hinv1.below_start h ?_ hd'
      omega)
  rw [hpos1] at hloc
  refine ⟨ans, r2, ?_, hinv2, hloc⟩
  simp only [hd, Option.filter_some, decide_eq_true_eq, if_neg hlow, hinv1.count, hpos1,
    if_neg (Nat.not_le.mpr hlt), forBlockSize, hbases]
  rw [hpos1] at hr2
  exact hr2

omit hr in
/-- So the reader answers as a cursor on the docids. -/
theorem docTracks : DocTracks docs (Inv docs) where
  len hr := hr.count
  pos_le hr := hr.pos_le
  peek hr := hr.peek_eq h
  next hr := hr.next_eq h
  advance {r} target hr := by
    obtain ⟨ans, r1, hr1, hinv1, hloc⟩ := hr.locate_eq h target
    simp only [PostingReader.advance, PostingReader.pos, advance, hr1, ok_bind]
    cases ans with
    | none =>
      have hend : docs[docs.length]? = none := by simp
      refine ⟨{ r1 with pos := r1.count }, by simp [hinv1.count], ?_, ?_⟩
      · exact { hinv1 with pos_le := hinv1.count.le }
      · rw [hinv1.count]
        exact hloc
    | some x =>
      obtain ⟨j, v⟩ := x
      obtain ⟨hv, hlands⟩ := hloc
      exact ⟨{ r1 with pos := j }, by simp [hv], { hinv1 with pos_le := hlands.le_length }, hlands⟩

end ForReader

end Gleaph.Postings
