import Gleaph.Postings.PartitionedEf
import Gleaph.Postings.EliasFano.Sound

/-!
# Gleaph.Postings.PartitionedEf.Sound

The partitioned reader tracks the encoded list.

It rests on the Elias-Fano reader twice: over the list of bounds, which never
passes the partition the reader stands in, and over single partitions, of which
the one the reader stands in may be open at the reader's place in it (`Inv`).
-/

namespace Gleaph.Postings

open List

/-! ## Partitions and their bounds -/

section Partitions

variable {docs : List Nat}

/-- A chunk ends with the docid before the next chunk, or the last one. -/
theorem getLastD_chunk (hk : 0 < k) (hb : b * k < docs.length) :
    docs[min ((b + 1) * k) docs.length - 1]? = some ((chunk k docs b).getLastD 0) := by
  have hlen : (chunk k docs b).length = min k (docs.length - b * k) := length_chunk b
  have hsucc : (b + 1) * k = b * k + k := Nat.succ_mul b k
  have hidx : min ((b + 1) * k) docs.length - 1 = b * k + ((chunk k docs b).length - 1) := by omega
  have hin : (chunk k docs b).length - 1 < (chunk k docs b).length := by omega
  rw [getLastD_eq_getLast?, getLast?_eq_getElem?, hidx, ← getElem?_chunk (by omega),
    getElem?_eq_getElem hin, Option.getD_some]

/-- A partition is a list of docids itself. -/
theorem DocList.chunk (h : DocList docs) (hb : b < ceilDiv docs.length 64) :
    DocList (chunk 64 docs b) where
  increasing := h.chunk_increasing 64 b
  docid_lt := h.chunk_lt 64 b
  nonempty := by
    have := (lt_ceilDiv_iff (by decide)).mp hb
    rw [length_chunk]
    omega
  length_lt := by
    rw [length_chunk]
    omega

/-- The bounds are the last docids of the partitions. -/
theorem partitionBounds_eq (docs : List Nat) :
    partitionBounds docs =
      (List.range (ceilDiv docs.length 64)).map fun b => (Gleaph.chunk 64 docs b).getLastD 0 := by
  rw [partitionBounds, chunks, map_map]
  rfl

/-- A bound stands at the end of its partition. -/
theorem getElem?_partitionBounds (h : (partitionBounds docs)[b]? = some bound) :
    b * 64 < docs.length ∧ docs[min ((b + 1) * 64) docs.length - 1]? = some bound := by
  rw [partitionBounds_eq, getElem?_map, Option.map_eq_some_iff] at h
  obtain ⟨b', hb', rfl⟩ := h
  obtain ⟨hlt, heq⟩ := List.getElem?_eq_some_iff.mp hb'
  rw [getElem_range] at heq
  rw [length_range] at hlt
  have hb := (lt_ceilDiv_iff (by decide)).mp hlt
  exact ⟨hb, heq ▸ getLastD_chunk (by decide) hb⟩

/-- There is a bound for each partition. -/
theorem length_partitionBounds : (partitionBounds docs).length = ceilDiv docs.length 64 := by
  rw [partitionBounds_eq, length_map, length_range]

/-- The bounds are a list of docids too, so they are encoded the same way. -/
theorem DocList.partitionBounds (h : DocList docs) : DocList (partitionBounds docs) where
  increasing := by
    rw [pairwise_iff_getElem]
    intro i j hi hj hij
    obtain ⟨hi', hdi⟩ := getElem?_partitionBounds (getElem?_eq_getElem hi)
    obtain ⟨hj', hdj⟩ := getElem?_partitionBounds (getElem?_eq_getElem hj)
    exact h.lt_of_getElem? (by omega) hdi hdj
  docid_lt d hd := by
    obtain ⟨b, hb, rfl⟩ := getElem_of_mem hd
    obtain ⟨-, hdoc⟩ := getElem?_partitionBounds (getElem?_eq_getElem hb)
    exact h.docid_lt _ (mem_of_getElem? hdoc)
  nonempty := by
    have := h.nonempty
    rw [length_partitionBounds, ceilDiv]
    omega
  length_lt := by
    have := h.length_lt
    rw [length_partitionBounds, ceilDiv]
    omega

end Partitions

/-! ## The layout -/

/-- A list of docids has an Elias-Fano code. -/
theorem DocList.encodeEliasFano (h : DocList docs) :
    encodeEliasFano docs = .ok (eliasFanoBytes docs) := by
  simp [Postings.encodeEliasFano, h.assertStrictlyIncreasing]

/-- The loop writes the starts and the codes of the partitions in turn. -/
theorem encodePartitions_eq (h : ∀ part ∈ parts, DocList part) :
    encodePartitions parts = .ok
      ((List.range parts.length).map (fun b => startOf eliasFanoBytes parts b % 2 ^ 32),
        parts.flatMap eliasFanoBytes) := by
  induction parts using List.reverseRecOn with
  | nil => rfl
  | append_singleton parts part ih =>
    have hpart := (h part (by simp)).encodeEliasFano
    have hinit := ih fun p hp => h p (by simp [hp])
    rw [encodePartitions] at hinit ⊢
    rw [foldlM_append, hinit, startOf_concat]
    simp [ok_bind, hpart, pure_eq_ok]

/-- The high parts of a list take fewer than two values per posting. -/
theorem shiftRight_lowWidth_lt (hn : 0 < n) (hn' : n < 2 ^ 32) (hlast : last < 2 ^ 32) :
    last >>> lowWidth last n < 2 * n := by
  have hmod : n % 2 ^ 32 = n := Nat.mod_eq_of_lt hn'
  rw [lowWidth, hmod, if_neg (by omega), Nat.shiftRight_eq_div_pow]
  by_cases hq : last / n = 0
  · have := Nat.lt_of_div_eq_zero hn hq
    rw [if_pos hq, Nat.pow_zero, Nat.div_one]
    omega
  have hle : Nat.log2 (last / n) ≤ 31 := by
    have : Nat.log2 (last / n) < 32 := (Nat.log2_lt hq).mpr ((Nat.div_le_self _ _).trans_lt hlast)
    omega
  rw [if_neg hq, Nat.min_eq_left hle, Nat.div_lt_iff_lt_mul (Nat.two_pow_pos _)]
  have hlt : last / n < 2 ^ ((last / n).log2 + 1) := Nat.lt_log2_self
  rw [Nat.div_lt_iff_lt_mul hn, Nat.pow_succ] at hlt
  calc last < 2 ^ (last / n).log2 * 2 * n := hlt
    _ = 2 * n * 2 ^ (last / n).log2 := by ring

/-- A partition's code has at most 293 bytes. -/
theorem length_eliasFanoBytes_le (h : DocList docs) (hlen : docs.length ≤ 64) :
    (eliasFanoBytes docs).length ≤ 293 := by
  have hpos := h.nonempty
  have hn := h.length_lt
  have hwidth := efWidth_le docs
  have hlast := h.getLastD_lt
  have hwords : efWords docs ≤ 4 := by
    have := shiftRight_lowWidth_lt hpos (by omega) hlast
    rw [efWords, efWidth]
    omega
  have hlows : (lowBytes (efWidth docs) docs).length ≤ 248 :=
    (EfReader.length_lowBytes_le hwidth).trans (by omega)
  rw [EfReader.length_eliasFanoBytes h]
  omega

namespace PefReader

variable {docs : List Nat}

/-- What the encoder's output holds. -/
structure Layout (docs : List Nat) (data : List UInt8) : Prop where
  count : readU32 data 0 = .ok docs.length
  partSize : readU32 data 4 = .ok 64
  boundsLen : readU32 data 8 = .ok (eliasFanoBytes (partitionBounds docs)).length
  bounds : Holds data 12 (eliasFanoBytes (partitionBounds docs))
  offsets : Holds data (12 + (eliasFanoBytes (partitionBounds docs)).length)
    (((List.range (ceilDiv docs.length 64 + 1)).map
      fun b => startOf eliasFanoBytes (chunks 64 docs) b % 2 ^ 32).flatMap (leBytes 4))
  parts : Holds data
    (12 + (eliasFanoBytes (partitionBounds docs)).length + (ceilDiv docs.length 64 + 1) * 4)
    ((chunks 64 docs).flatMap eliasFanoBytes)

/-! ## The reader's state -/

/-- The bounds reader has ruled out no partition at or behind the reader's
index; an open reader over the partition of that index stands at it. -/
structure Inv (docs : List Nat) (r : PefReader) : Prop where
  count : r.count = docs.length
  partSize : r.partSize = 64
  offsets : r.partOffsets =
    (List.range (ceilDiv docs.length 64 + 1)).map (startOf eliasFanoBytes (chunks 64 docs))
  parts : Holds r.data r.partsStart ((chunks 64 docs).flatMap eliasFanoBytes)
  bounds : EfReader.Inv (partitionBounds docs) r.bounds
  pos_le : r.pos ≤ docs.length
  ruled : r.pos < docs.length → r.bounds.pos ≤ r.pos / 64
  active : ∀ p er, r.active = some (p, er) → r.pos < docs.length → p = r.pos / 64 →
    EfReader.Inv (chunk 64 docs p) er ∧ er.pos = r.pos % 64

/-- A partition has 64 docids, the last one what is left. -/
theorem length_part (docs : List Nat) (b : Nat) :
    (chunk 64 docs b).length = min 64 (docs.length - b * 64) := length_chunk b

/-- A position lies in a partition that exists. -/
theorem part_lt {pos : Nat} (hpos : pos < docs.length) : pos / 64 < ceilDiv docs.length 64 := by
  simp only [ceilDiv]
  omega

/-- Reading past postings of a partition. -/
theorem forward_eq (h : DocList part) (her : EfReader.Inv part er)
    (hle : er.pos + steps ≤ part.length) :
    ∃ er', forward steps er = .ok er' ∧ EfReader.Inv part er' ∧ er'.pos = er.pos + steps := by
  induction steps generalizing er with
  | zero => exact ⟨er, rfl, her, rfl⟩
  | succ steps ih =>
    obtain ⟨er1, her1, hinv1, hpos1⟩ := her.next_eq h
    have hpos1' : er1.pos = er.pos + 1 := by omega
    obtain ⟨er2, her2, hinv2, hpos2⟩ := ih hinv1 (by omega)
    exact ⟨er2, by simp only [forward, her1, ok_bind, her2], hinv2, by omega⟩

/-- The bounds reader stops at the first bound that reaches the target. -/
theorem ruleOut_eq {bounds : List Nat} (h : DocList bounds) (target : Nat)
    (her : EfReader.Inv bounds er) (hfuel : bounds.length - er.pos < fuel) :
    ∃ er', ruleOut target fuel er = .ok (decide (er'.pos < bounds.length), er') ∧
      EfReader.Inv bounds er' ∧ Lands bounds target er.pos er'.pos := by
  induction fuel generalizing er with
  | zero => omega
  | succ fuel ih =>
    have hle := her.pos_le.trans her.scan_le
    obtain ⟨er1, her1, hinv1, hpos1, -⟩ := her.peek_eq h
    rw [ruleOut, her1, ok_bind]
    obtain ⟨hd, hge, hstay⟩ | ⟨bound, hd, hlt, ⟨hreach, hstay⟩ | hlow⟩ :=
      Lands.here_or_below hle target
    · exact ⟨er1, by simp [hpos1, Nat.not_lt.mpr hge], hinv1, hpos1 ▸ hstay⟩
    · exact ⟨er1, by rw [hd]; simp [hreach, hpos1, hlt], hinv1, hpos1 ▸ hstay⟩
    obtain ⟨er2, her2, hinv2, hpos2⟩ := hinv1.next_eq h
    have hpos2' : er2.pos = er.pos + 1 := by omega
    obtain ⟨er', her', hinv', hlands⟩ := ih hinv2 (by omega)
    refine ⟨er', by simp only [hd, if_neg hlow, her2, ok_bind, her'], hinv', ?_⟩
    rw [hpos2'] at hlands
    exact hlands.of_succ hd hlow

variable (h : DocList docs)

include h

/-- Every partition is a list of docids. -/
theorem docList_of_mem_chunks (hp : part ∈ chunks 64 docs) : DocList part := by
  obtain ⟨b, hb, rfl⟩ := getElem_of_mem hp
  rw [length_chunks] at hb
  have heq := (getElem?_eq_getElem (l := chunks 64 docs) (by rwa [length_chunks])).symm.trans
    (getElem?_chunks hb)
  rw [Option.some.injEq] at heq
  exact heq ▸ h.chunk hb

/-- Offsets of partitions fit a word. -/
theorem partStart_lt (hb : b ≤ ceilDiv docs.length 64) :
    startOf eliasFanoBytes (chunks 64 docs) b < 2 ^ 32 := by
  have hn := h.length_lt
  have hle : startOf eliasFanoBytes (chunks 64 docs) b ≤ 293 * b := by
    refine startOf_le (fun part hp => ?_) (by rwa [length_chunks])
    refine length_eliasFanoBytes_le (docList_of_mem_chunks h hp) ?_
    obtain ⟨i, hi, rfl⟩ := getElem_of_mem hp
    simp only [chunks, getElem_map, length_chunk]
    omega
  simp only [ceilDiv] at hb
  omega

/-- The length of the bounds' code fits its `u32` field. -/
theorem boundsLen_lt :
    (eliasFanoBytes (partitionBounds docs)).length < 2 ^ 32 := by
  have hbounds := h.partitionBounds
  have hn := h.length_lt
  have hB : (partitionBounds docs).length = ceilDiv docs.length 64 := length_partitionBounds
  have hwords := shiftRight_lowWidth_lt hbounds.nonempty
    (by have := hbounds.length_lt; omega) hbounds.getLastD_lt
  have hlows : (lowBytes (efWidth (partitionBounds docs)) (partitionBounds docs)).length ≤
      (31 * (partitionBounds docs).length + 7) / 8 :=
    EfReader.length_lowBytes_le (efWidth_le (partitionBounds docs))
  rw [EfReader.length_eliasFanoBytes hbounds, efWords, efWidth]
  rw [efWidth] at hlows
  simp only [ceilDiv] at hB
  omega

/-- The bytes of an encoded list are the header, the bounds, the starts and the
partitions, in that order. -/
theorem layout {data : List UInt8}
    (hdata : encodePartitionedEf docs = .ok data) : Layout docs data := by
  have hn := h.length_lt
  have hB := boundsLen_lt h
  have hlenChunks : (chunks 64 docs).length = ceilDiv docs.length 64 := length_chunks
  rw [encodePartitionedEf, h.assertStrictlyIncreasing, h.partitionBounds.encodeEliasFano,
    pefPartitionSize, encodePartitions_eq fun part hp => docList_of_mem_chunks h hp] at hdata
  simp only [ok_bind, pure_eq_ok, Except.ok.injEq, startOf_range] at hdata
  rw [hlenChunks] at hdata
  have h0 := Holds.of_eq hdata.symm
  have hcount := h0.left.readWord_eq headerField
  have hsize := h0.right.left.readWord_eq headerField
  have hlen := h0.right.right.left.readWord_eq headerField
  have hbounds := h0.right.right.right.left
  have htab := h0.right.right.right.right.left
  have hparts := h0.right.right.right.right.right
  simp only [length_leBytes, Nat.zero_add, Nat.reduceAdd, length_map, length_range,
    Holds.length_flatMap_of_width (fun n _ => length_leBytes 4 n)] at hsize hlen hbounds htab hparts
  refine ⟨hcount.trans ?_, hsize, hlen.trans ?_, hbounds, htab, hparts⟩
  · congr 1
    omega
  · congr 1
    omega

/-- A fresh reader over an encoded list. -/
theorem new_eq {data : List UInt8} (hdata : Layout docs data) :
    ∃ r, PefReader.new data = .ok r ∧ Inv docs r ∧ r.pos = 0 := by
  have hn := h.length_lt
  have hpos := h.nonempty
  have hbounds := hdata.bounds
  have hparts := hdata.parts.le
  have htab := hdata.offsets.le
  obtain ⟨er, her, hinv, hzero⟩ := EfReader.new_eq h.partitionBounds
  have hcount : er.count = ceilDiv docs.length 64 := hinv.count.trans length_partitionBounds
  have hoffsets := readU32_starts hdata.offsets fun b hb => partStart_lt h (Nat.le_of_lt_succ hb)
  refine ⟨⟨data, 12 + (eliasFanoBytes (partitionBounds docs)).length +
    (ceilDiv docs.length 64 + 1) * 4,
    (List.range (ceilDiv docs.length 64 + 1)).map (startOf eliasFanoBytes (chunks 64 docs)),
    docs.length, 64, er, 0, none⟩, ?_, ?_, rfl⟩
  · simp only [new, if_neg (show ¬ data.length < 12 by omega), hdata.count, hdata.partSize,
      hdata.boundsLen, ok_bind, hbounds.slice_eq, expect_some, her, hcount, pefPartitionSize,
      if_neg (show ¬ ((64 : Nat) ≠ 64 ∨ docs.length = 0 ∨
        data.length < 12 + (eliasFanoBytes (partitionBounds docs)).length) by omega),
      if_neg (show ¬ (ceilDiv docs.length 64 ≠ ceilDiv docs.length 64) from not_not.mpr rfl),
      if_neg (show ¬ data.length < 12 + (eliasFanoBytes (partitionBounds docs)).length +
        (ceilDiv docs.length 64 + 1) * 4 by omega), hoffsets, pure_eq_ok]
  · exact {
      count := rfl
      partSize := rfl
      offsets := rfl
      parts := hdata.parts
      bounds := hinv
      pos_le := Nat.zero_le _
      ruled := fun _ => by simp [hzero]
      active := by simp }

/-- Before partition `m` every docid is below the target when the bounds
before it are. -/
theorem below_of_bounds (hm : m ≤ ceilDiv docs.length 64)
    (hbounds : ∀ b bound, b < m → (partitionBounds docs)[b]? = some bound → bound < target)
    (hi : i < m * 64) (hd : docs[i]? = some d) : d < target := by
  have hlt := (List.getElem?_eq_some_iff.mp hd).1
  have hb : i / 64 < m := by omega
  have hget := List.getElem?_eq_getElem (l := partitionBounds docs) (i := i / 64)
    (by rw [length_partitionBounds]; omega)
  obtain ⟨-, hbound⟩ := getElem?_partitionBounds hget
  refine Nat.lt_of_le_of_lt ?_ (hbounds _ _ hb hget)
  by_cases heq : i = min ((i / 64 + 1) * 64) docs.length - 1
  · rw [← heq, hd, Option.some.injEq] at hbound
    exact hbound.le
  · exact (h.lt_of_getElem? (by omega) hd hbound).le

/-! ## Reading and advancing -/

variable {r : PefReader} (hr : Inv docs r)

include hr

/-- A partition's reader starts at the partition's first docid. -/
theorem Inv.partitionReader_eq (hb : b < ceilDiv docs.length 64) :
    ∃ er, r.partitionReader b = .ok er ∧ EfReader.Inv (chunk 64 docs b) er ∧ er.pos = 0 := by
  obtain ⟨er, her, hinv, hzero⟩ := EfReader.new_eq (h.chunk hb)
  have hchunk := getElem?_chunks hb
  obtain ⟨hstart, hstop, hslice⟩ := hr.parts.slice_starts hr.offsets hb hchunk
  refine ⟨er, ?_, hinv, hzero⟩
  simp only [partitionReader, hstart, hstop, expect_some, ok_bind, hslice, her]

/-- Inside the list the partition of the reader's index is opened at it. -/
theorem Inv.install_eq
    (hlt : r.pos < docs.length) :
    ∃ er, r.install (r.pos / 64) = .ok er ∧ EfReader.Inv (chunk 64 docs (r.pos / 64)) er ∧
      er.pos = r.pos % 64 := by
  have hfresh : ∃ er, r.activeFor (r.pos / 64) = .ok er ∧
      EfReader.Inv (chunk 64 docs (r.pos / 64)) er ∧ er.pos = r.pos % 64 := by
    obtain ⟨er, her, hinv, hzero⟩ := hr.partitionReader_eq h (part_lt hlt)
    have hlen := length_part docs (r.pos / 64)
    obtain ⟨er', her', hinv', hpos'⟩ := forward_eq (h.chunk (part_lt hlt)) hinv
      (show er.pos + r.pos % 64 ≤ _ by omega)
    refine ⟨er', ?_, hinv', by omega⟩
    simp only [activeFor, her, ok_bind, hr.partSize, her']
  cases hactive : r.active with
  | none => simpa only [install, hactive] using hfresh
  | some x =>
    obtain ⟨p, er⟩ := x
    by_cases hp : p = r.pos / 64
    · obtain ⟨hinv, hpos⟩ := hr.active p er hactive hlt hp
      exact ⟨er, by simp only [install, hactive, if_pos hp], hp ▸ hinv, hpos⟩
    · simpa only [install, hactive, if_neg hp] using hfresh

/-- A peek opens the partition of the position, if it is not open, and stays
there. -/
theorem Inv.peek_eq :
    ∃ r', r.peek = .ok (docs[r.pos]?, r') ∧ Inv docs r' ∧ r'.pos = r.pos ∧
      (r.pos < docs.length → ∃ er, r'.active = some (r.pos / 64, er)) := by
  rw [peek, hr.count, hr.partSize]
  by_cases hend : docs.length ≤ r.pos
  · exact ⟨r, by simp [hend], hr, rfl, fun hlt => absurd hlt (Nat.not_lt.mpr hend)⟩
  have hlt := Nat.not_le.mp hend
  obtain ⟨er, her, hinv, hpos⟩ := hr.install_eq h hlt
  obtain ⟨er', her', hinv', hpos', -⟩ := hinv.peek_eq (h.chunk (part_lt hlt))
  have hget : (chunk 64 docs (r.pos / 64))[er.pos]? = docs[r.pos]? := by
    rw [hpos, getElem?_chunk (Nat.mod_lt _ (by decide)), Nat.div_add_mod']
  refine ⟨{ r with active := some (r.pos / 64, er') }, ?_, { hr with active := fun _ _ heq _ _ => ?_ },
    rfl, fun _ => ⟨er', rfl⟩⟩
  case refine_2 =>
    obtain ⟨rfl, rfl⟩ := Prod.mk.injEq .. ▸ Option.some.inj heq
    exact ⟨hinv', hpos'.trans hpos⟩
  simp only [if_neg hend, her, ok_bind, her', hget, pure_eq_ok, hr.count, hr.partSize]

/-- `next` answers the docid at the position and moves on by one, up to the end.
-/
theorem Inv.next_eq :
    ∃ r', r.next = .ok (docs[r.pos]?, r') ∧ Inv docs r' ∧ r'.pos = min (r.pos + 1) docs.length := by
  obtain ⟨r1, hr1, hinv1, hpos1, hopen⟩ := hr.peek_eq h
  have hn := h.length_lt
  have hle := hr.pos_le
  cases hd : docs[r.pos]? with
  | none =>
    have hge := getElem?_eq_none_iff.mp hd
    exact ⟨r1, by simp [next, hr1, hd], hinv1, by omega⟩
  | some d =>
    have hlt := (List.getElem?_eq_some_iff.mp hd).1
    obtain ⟨er, her⟩ := hopen hlt
    obtain ⟨hinv, hpos⟩ := hinv1.active _ er her (by omega) (by rw [hpos1])
    obtain ⟨er', her', hinv', hpos'⟩ := hinv.next_eq (h.chunk (part_lt hlt))
    have hstep : (r1.pos + 1) % 2 ^ 32 = min (r.pos + 1) docs.length := by omega
    refine ⟨{ r1 with active := some (r.pos / 64, er'), pos := (r1.pos + 1) % 2 ^ 32 },
      by simp [next, hr1, hd, her, expect_some, her'], ?_, hstep⟩
    have hruled := hinv1.ruled (by omega)
    exact { hinv1 with
      pos_le := by simp only; omega
      ruled := fun hlt' => by simp only at hlt' ⊢; omega
      active := fun p er'' heq hlt' hp => by
        obtain ⟨rfl, rfl⟩ := Prod.mk.injEq .. ▸ Option.some.inj heq
        simp only at hlt' hp ⊢
        have hlen := length_part docs (r.pos / 64)
        exact ⟨hinv', by omega⟩ }

omit hr in
/-- So the reader answers as a cursor on the docids. -/
theorem docTracks : DocTracks docs (Inv docs) where
  len hr := hr.count
  pos_le hr := hr.pos_le
  peek hr := by
    obtain ⟨r', hr', hinv, hpos, -⟩ := hr.peek_eq h
    exact ⟨r', hr', hinv, hpos⟩
  next hr := hr.next_eq h
  advance {r} target hr := by
    obtain ⟨r1, hr1, hinv1, hpos1, -⟩ := hr.peek_eq h
    have hle := hr.pos_le
    have hn := h.length_lt
    simp only [PostingReader.advance, PostingReader.pos, advance, hr1, ok_bind]
    obtain ⟨hd, hge, hstay⟩ | ⟨d, hd, hlt, ⟨hreach, hstay⟩ | hlow⟩ := Lands.here_or_below hle target
    · exact ⟨r1, by simp [hinv1.count, hpos1, hge], hinv1, hpos1 ▸ hstay⟩
    · exact ⟨r1, by simp [Option.filter_some, hreach, hpos1, hd], hinv1, hpos1 ▸ hstay⟩
    have hstop : ¬ r1.count ≤ r1.pos := by rw [hinv1.count, hpos1]; omega
    obtain ⟨er, her, hinvE, hlandsE⟩ := ruleOut_eq h.partitionBounds target hinv1.bounds
      (show _ < r1.bounds.count - r1.bounds.pos + 1 by rw [hinv1.bounds.count]; omega)
    have hm := hlandsE.le_length
    -- those that the bounds reader had ruled out before belong to partitions before the index
    have hbounds : ∀ b bound, b < er.pos → (partitionBounds docs)[b]? = some bound →
        bound < target := by
      intro b bound hb hget
      have hruled := hinv1.ruled (by rwa [hpos1])
      by_cases hpast : r1.bounds.pos ≤ b
      · exact hlandsE.below b bound hpast hb hget
      · obtain ⟨-, hbound⟩ := getElem?_partitionBounds hget
        exact (h.lt_of_getElem? (by omega) hbound hd).trans (Nat.not_le.mp hlow)
    rw [length_partitionBounds] at hm her
    have hbelow : ∀ i d, i < er.pos * 64 → docs[i]? = some d → d < target :=
      fun i d hi hget => below_of_bounds h hm hbounds hi hget
    simp only [hd, Option.filter_some, decide_eq_true_eq, if_neg hlow, if_neg hstop, her, ok_bind]
    by_cases hfound : er.pos < ceilDiv docs.length 64
    · -- the partition at the bounds reader's index holds the answer
      have hget := getElem?_eq_getElem (l := partitionBounds docs) (i := er.pos)
        (by rwa [length_partitionBounds])
      obtain ⟨-, hlast⟩ := getElem?_partitionBounds hget
      have hlast' := hlandsE.reached _ hget
      have hpart : max er.pos (r1.pos / r1.partSize) = er.pos := by
        rw [hinv1.partSize, hpos1, Nat.max_eq_left]
        by_contra hcon
        have := h.lt_of_getElem? (by omega) hlast hd
        omega
      obtain ⟨pr, hpr, hinvP, hzero⟩ := hinv1.partitionReader_eq h hfound
      obtain ⟨pr', hpr', hinvP', hlandsP⟩ :=
        (EfReader.docTracks (h.chunk hfound)).advance target hinvP
      simp only [PostingReader.advance, PostingReader.pos, hzero] at hpr' hlandsP
      have hlen := length_part docs er.pos
      have hstart := (lt_ceilDiv_iff (by decide)).mp hfound
      have hj : pr'.pos < (chunk 64 docs er.pos).length := by
        by_contra hcon
        have := hlandsP.below (min ((er.pos + 1) * 64) docs.length - 1 - er.pos * 64) _
          (Nat.zero_le _) (by omega) (by
            rw [getElem?_chunk (by omega), Nat.add_sub_cancel' (by omega), hlast])
        omega
      have hdoc : (chunk 64 docs er.pos)[pr'.pos]? = docs[er.pos * 64 + pr'.pos]? :=
        getElem?_chunk (by omega)
      have hv : docs[er.pos * 64 + pr'.pos]? = some docs[er.pos * 64 + pr'.pos] :=
        getElem?_eq_getElem (by omega)
      have hahead : r.pos ≤ er.pos * 64 + pr'.pos := by
        by_contra hcon
        have := hlandsP.reached _ (hdoc.trans hv)
        have := h.lt_of_getElem? (by omega) hv hd
        omega
      have hlands : Lands docs target r.pos (er.pos * 64 + pr'.pos) := by
        refine ⟨hahead, by omega, fun i d hi hi' hd => ?_,
          fun d hd => hlandsP.reached d (hdoc.trans hd)⟩
        by_cases him : i < er.pos * 64
        · exact hbelow i d him hd
        · refine hlandsP.below (i - er.pos * 64) d (Nat.zero_le _) (by omega) ?_
          rw [getElem?_chunk (by omega), Nat.add_sub_cancel' (by omega), hd]
      have hmod : (er.pos * r1.partSize + pr'.pos) % 2 ^ 32 = er.pos * 64 + pr'.pos := by
        rw [hinv1.partSize]
        omega
      refine ⟨{ r1 with bounds := er, pos := er.pos * 64 + pr'.pos, active := some (er.pos, pr') },
        ?_, ?_, hlands⟩
      · simp only [hfound, if_true, hpart, hpr, ok_bind, hpr', hdoc, hv, hmod,
          pure_eq_ok]
      exact
        { hinv1 with
          bounds := hinvE
          pos_le := by simp only; omega
          ruled := fun _ => by simp only; omega
          active := fun p er' heq _ _ => by
            obtain ⟨rfl, rfl⟩ := Prod.mk.injEq .. ▸ Option.some.inj heq
            exact ⟨hinvP', by simp only; omega⟩ }
    · refine ⟨{ r1 with bounds := er, pos := r1.count }, ?_,
        { hinv1 with
          bounds := hinvE
          pos_le := hinv1.count.le
          ruled := fun hlt => absurd hinv1.count (Nat.ne_of_lt hlt)
          active := fun _ _ _ hlt => absurd hinv1.count (Nat.ne_of_lt hlt) }, ?_⟩
      · have hnone : docs[r1.count]? = none := by rw [hinv1.count, List.getElem?_length]
        simp [hfound, pure_eq_ok, hnone]
      simp only [hinv1.count]
      refine ⟨hle, Nat.le_refl _, fun i d' _ hi hget => hbelow i d' ?_ hget, by simp⟩
      simp only [ceilDiv] at hfound
      omega

end PefReader

end Gleaph.Postings
