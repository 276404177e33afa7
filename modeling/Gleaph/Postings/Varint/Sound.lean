import Gleaph.Postings.Varint
import Gleaph.Postings.Skip.Sound

/-!
# Gleaph.Postings.Varint.Sound

The delta readers track the encoded list.

An encoded list is the count, one step per posting and the skip trailer
(`encodePostings_eq`).  Between calls a reader stands before posting `pos`,
with that posting decoded or not (`Inv`); a jump moves it to the start of a
later block that has only docids below the target before it.
-/

namespace Gleaph.Postings

open List hiding prev

open SkipIndex (blockCount)

/-! ## LEB128 -/

/-- A small value is one byte. -/
theorem writeU32_of_lt (h : v < 128) : writeU32 v = [UInt8.ofNat v] := by
  have hrest : v >>> 7 = 0 := by
    rw [Nat.shiftRight_eq_div_pow]
    omega
  have hgroup : v &&& 0x7F = v := by
    rw [show (0x7F : Nat) = 2 ^ 7 - 1 from rfl, Nat.and_two_pow_sub_one_eq_mod]
    omega
  rw [writeU32, if_pos hrest, hgroup]

/-- A larger one gives its low seven bits first. -/
theorem writeU32_of_le (h : 128 ≤ v) :
    writeU32 v = UInt8.ofNat (v % 128 + 128) :: writeU32 (v / 128) := by
  have hrest : v >>> 7 = v / 128 := Nat.shiftRight_eq_div_pow v 7
  have hgroup : (v &&& 0x7F) ||| 0x80 = v % 128 + 128 := by
    rw [show (0x7F : Nat) = 2 ^ 7 - 1 from rfl, Nat.and_two_pow_sub_one_eq_mod, Nat.or_comm,
      show (0x80 : Nat) = 2 ^ 7 * 1 from rfl,
      ← Nat.two_pow_add_eq_or_of_lt (Nat.mod_lt v (by decide))]
    omega
  rw [writeU32, hrest, if_neg (by omega), hgroup]

/-- Seven bits to a byte. -/
theorem length_writeU32_le (h : v < 128 ^ (k + 1)) : (writeU32 v).length ≤ k + 1 := by
  induction k generalizing v with
  | zero => simp [writeU32_of_lt (by simpa using h)]
  | succ k ih =>
    by_cases hlt : v < 128
    · simp [writeU32_of_lt hlt]
    have hdiv : v / 128 < 128 ^ (k + 1) := by
      rw [Nat.div_lt_iff_lt_mul (by decide), ← Nat.pow_succ]
      exact h
    rw [writeU32_of_le (Nat.not_lt.mp hlt), length_cons]
    have := ih hdiv
    omega

/-- A group is put above the groups before it. -/
theorem or_group (hr : result < 2 ^ shift) (hg : group * 2 ^ shift < 2 ^ 32) :
    result ||| (group <<< shift % 2 ^ 32) = result + group * 2 ^ shift := by
  rw [Nat.shiftLeft_eq, Nat.mod_eq_of_lt hg, Nat.or_comm, Nat.mul_comm,
    ← Nat.two_pow_add_eq_or_of_lt hr, Nat.add_comm]

namespace DeltaReader

variable {c : DeltaCodec}

/-- The byte that ends a number. -/
theorem decodeLoop_last {r : DeltaReader c} (hbyte : r.data[off]? = some (UInt8.ofNat v))
    (hend : off < r.payloadEnd) (hlt : v < 128) (htop : shift = 28 → v < 16)
    (hresult : result < 2 ^ shift) (hv : v * 2 ^ shift < 2 ^ 32) :
    r.decodeLoop (fuel + 1) shift result off = .ok (result + v * 2 ^ shift, off + 1) := by
  have hnat : (UInt8.ofNat v).toNat = v := by
    rw [UInt8.toNat_ofNat']
    omega
  have hbits : v &&& 0x7F = v ∧ v &&& 0x80 = 0 :=
    (by decide : ∀ v < 128, v &&& 0x7F = v ∧ v &&& 0x80 = 0) v hlt
  have htop' : ¬ (shift = 28 ∧ 0x0F < v) := by omega
  simp only [decodeLoop, if_neg (Nat.not_le.mpr hend), hbyte, expect_some, ok_bind, hnat,
    if_neg htop', hbits.1, hbits.2, or_group hresult hv, if_true, pure_eq_ok]

/-- A byte with more to come. -/
theorem decodeLoop_more {r : DeltaReader c} (hbyte : r.data[off]? = some (UInt8.ofNat (g + 128)))
    (hend : off < r.payloadEnd) (hlt : g < 128) (hshift : shift ≤ 21) (hresult : result < 2 ^ shift)
    (hg : g * 2 ^ shift < 2 ^ 32) :
    r.decodeLoop (fuel + 1) shift result off =
      r.decodeLoop fuel (shift + 7) (result + g * 2 ^ shift) (off + 1) := by
  have hnat : (UInt8.ofNat (g + 128)).toNat = g + 128 := by
    rw [UInt8.toNat_ofNat']
    omega
  have hbits : (g + 128) &&& 0x7F = g ∧ ¬ (g + 128) &&& 0x80 = 0 :=
    (by decide : ∀ g < 128, (g + 128) &&& 0x7F = g ∧ ¬ (g + 128) &&& 0x80 = 0) g hlt
  have htop' : ¬ (shift = 28 ∧ 0x0F < g + 128) := by omega
  simp only [decodeLoop, if_neg (Nat.not_le.mpr hend), hbyte, expect_some, ok_bind, hnat,
    if_neg htop', hbits.1, if_neg hbits.2, or_group hresult hg,
    if_neg (show ¬ 32 ≤ shift + 7 by omega)]

/-- A stored number is read back, from any group on. -/
theorem decodeLoop_eq {r : DeltaReader c} (hfuel : shift + 7 * fuel = 28)
    (hv : v * 2 ^ shift < 2 ^ 32) (hresult : result < 2 ^ shift) (h : Holds r.data off (writeU32 v))
    (hend : off + (writeU32 v).length ≤ r.payloadEnd) :
    r.decodeLoop (fuel + 1) shift result off =
      .ok (result + v * 2 ^ shift, off + (writeU32 v).length) := by
  induction fuel generalizing shift result off v with
  | zero =>
    have hshift : shift = 28 := by omega
    rw [hshift] at hv hresult ⊢
    have hlt : v < 16 := by omega
    rw [writeU32_of_lt (by omega)] at h hend ⊢
    exact decodeLoop_last h.head hend (by omega) (fun _ => hlt) hresult hv
  | succ fuel ih =>
    by_cases hlt : v < 128
    · rw [writeU32_of_lt hlt] at h hend ⊢
      exact decodeLoop_last h.head hend hlt (by omega) hresult hv
    rw [writeU32_of_le (Nat.not_lt.mp hlt)] at h hend ⊢
    have hpow : 2 ^ (shift + 7) = 2 ^ shift * 128 := Nat.pow_add 2 shift 7
    have hsplit : v % 128 * 2 ^ shift + v / 128 * 2 ^ (shift + 7) = v * 2 ^ shift := by
      calc v % 128 * 2 ^ shift + v / 128 * 2 ^ (shift + 7)
          = (v % 128 + 128 * (v / 128)) * 2 ^ shift := by rw [hpow]; ring
        _ = v * 2 ^ shift := by rw [Nat.mod_add_div]
    have hnext : result + v % 128 * 2 ^ shift < 2 ^ (shift + 7) := by
      have hle : v % 128 * 2 ^ shift ≤ 127 * 2 ^ shift :=
        Nat.mul_le_mul_right _ (by omega)
      omega
    rw [length_cons] at hend ⊢
    rw [decodeLoop_more h.head (by omega) (Nat.mod_lt v (by decide)) (by omega) hresult (by omega),
      ih (by omega) (by omega) hnext h.tail (by omega)]
    congr 2
    · omega
    · omega

end DeltaReader

/-! ## The layout of an encoded list -/

/-- A list the codecs are made for, of a length that a slice of a 32-bit
address space can have. -/
structure Encodable (postings : List Posting) : Prop where
  increasing : postings.Pairwise fun p q => p.1 < q.1
  docid_lt : ∀ p ∈ postings, p.1 < 2 ^ 32
  nonempty : 0 < postings.length
  length_lt : postings.length < 2 ^ 29

def docAt (postings : List Posting) (i : Nat) : Nat := (postings.getD i (0, 0)).1

def tfAt (postings : List Posting) (i : Nat) : Nat := (postings.getD i (0, 0)).2

theorem docAt_eq (h : postings[i]? = some p) : docAt postings i = p.1 := by
  simp [docAt, h]

namespace DeltaCodec

variable (c : DeltaCodec) (postings : List Posting)

/-- Delta to the docid before. -/
def deltaAt (postings : List Posting) (i : Nat) : Nat :=
  if i = 0 then docAt postings i else docAt postings i - docAt postings (i - 1)

/-- Posting `i` on the wire. -/
def stepAt (i : Nat) : List UInt8 := c.step (deltaAt postings i) (tfAt postings i)

/-- Where posting `i` starts. -/
def offset (i : Nat) : Nat := 4 + ((List.range i).flatMap (c.stepAt postings)).length

/-- What is read back of posting `i`. -/
def stored (i : Nat) : Posting :=
  (docAt postings i, if c.withTf then min (tfAt postings i) 255 else 1)

/-- The list as it is read back: frequencies capped at a byte, or one. -/
def readBack : List Posting :=
  postings.map fun p => (p.1, if c.withTf then min p.2 255 else 1)

/-- A posting reads back as what is stored of it. -/
theorem getElem?_readBack (i : Nat) :
    (c.readBack postings)[i]? =
      if i < postings.length then some (c.stored postings i) else none := by
  by_cases h : i < postings.length
  · simp [readBack, stored, docAt, tfAt, h]
  · simp [readBack, h]

/-- The docids are read back as they are. -/
theorem docAt_of_readBack (h : ((c.readBack postings).map Prod.fst)[i]? = some d) :
    i < postings.length ∧ docAt postings i = d := by
  rw [getElem?_map, getElem?_readBack] at h
  by_cases hi : i < postings.length
  · simpa [hi, stored] using h
  · simp [hi] at h

theorem length_readBack : (c.readBack postings).length = postings.length := length_map _

/-- The next posting starts behind this one. -/
theorem offset_succ (i : Nat) :
    c.offset postings (i + 1) = c.offset postings i + (c.stepAt postings i).length := by
  simp only [offset, range_succ, flatMap_append, length_append, flatMap_cons,
    flatMap_nil, append_nil, Nat.add_assoc]

theorem offset_mono (h : i ≤ j) : c.offset postings i ≤ c.offset postings j := by
  induction j, h using Nat.le_induction with
  | base => exact Nat.le_refl _
  | succ j _ ih =>
    rw [offset_succ]
    omega

variable {c postings}

/-- A posting takes at most six bytes, five of a delta and one of a frequency.
-/
theorem length_step_le (h : delta < 2 ^ 32) : (c.step delta tf).length ≤ 6 := by
  have hlen := length_writeU32_le (show delta < 128 ^ (4 + 1) by omega)
  cases hc : c.withTf with
  | false =>
    simp only [step, hc, Bool.false_eq_true, if_false, append_nil]
    omega
  | true =>
    simp only [step, hc, if_true, length_append, length_singleton]
    omega

end DeltaCodec

open DeltaCodec (deltaAt stepAt readBack)

namespace Encodable

variable {postings : List Posting} (h : Encodable postings)

include h

theorem docAt_lt (hi : i < postings.length) : docAt postings i < 2 ^ 32 := by
  rw [docAt_eq (getElem?_eq_getElem hi)]
  exact h.docid_lt _ (getElem_mem hi)

theorem docAt_mono (hij : i < j) (hj : j < postings.length) :
    docAt postings i < docAt postings j := by
  rw [docAt_eq (getElem?_eq_getElem (hij.trans hj)), docAt_eq (getElem?_eq_getElem hj)]
  exact pairwise_iff_getElem.mp h.increasing i j (hij.trans hj) hj hij

/-- Deltas fit `u32`, as docids do. -/
theorem deltaAt_lt (hi : i < postings.length) : deltaAt postings i < 2 ^ 32 := by
  have := h.docAt_lt hi
  rw [deltaAt]
  split <;> omega

theorem offset_le (c : DeltaCodec) (hi : i ≤ postings.length) :
    c.offset postings i ≤ 4 + 6 * i := by
  induction i with
  | zero => simp [DeltaCodec.offset]
  | succ i ih =>
    have hstep : (c.stepAt postings i).length ≤ 6 := DeltaCodec.length_step_le (h.deltaAt_lt hi)
    have := ih (by omega)
    rw [DeltaCodec.offset_succ]
    omega

/-- Docids and offsets increase together, as the skip index asks. -/
theorem placed (c : DeltaCodec) : Placed (docAt postings) (c.offset postings) postings.length where
  doc_lt i hi := h.docAt_lt hi
  doc_mono i j hij hj := h.docAt_mono hij hj
  offset_lt i hi := by
    have := h.offset_le c hi.le
    have := h.length_lt
    omega
  pos := h.nonempty
  count_lt := by
    have := h.length_lt
    omega

end Encodable

/-! ## Encoding -/

section Encoding

variable {c : DeltaCodec} {postings : List Posting}

/-- The loop writes the remaining steps and records them. -/
theorem encodeLoop_eq (h : Encodable postings) (hheader : header.length = 4)
    (hi : i ≤ postings.length) (hprev : 0 < i → prev = docAt postings (i - 1)) :
    encodeLoop c i prev (header ++ (List.range i).flatMap (c.stepAt postings))
      (SkipBuilder.behind (docAt postings) (c.offset postings) postings.length i)
      (postings.drop i) =
    (header ++ (List.range postings.length).flatMap (c.stepAt postings),
      SkipBuilder.behind (docAt postings) (c.offset postings) postings.length postings.length) := by
  induction hk : postings.length - i generalizing i prev with
  | zero =>
    have heq : i = postings.length := by omega
    rw [heq, drop_length]
    rfl
  | succ k ih =>
    have hlt : i < postings.length := by omega
    have hdoc : docAt postings i = postings[i].1 := docAt_eq (getElem?_eq_getElem hlt)
    have htf : tfAt postings i = postings[i].2 := by
      simp [tfAt, getElem?_eq_getElem hlt]
    have hlen : (header ++ (List.range i).flatMap (c.stepAt postings)).length =
        c.offset postings i := by
      rw [length_append, hheader, DeltaCodec.offset]
    have hdelta : (if i = 0 then postings[i].1 else postings[i].1 - prev) =
        deltaAt postings i := by
      rw [deltaAt, hdoc]
      by_cases h0 : i = 0
      · simp [h0]
      · rw [if_neg h0, if_neg h0, hprev (by omega)]
    have hstep : header ++ (List.range i).flatMap (c.stepAt postings) ++
        c.step (deltaAt postings i) postings[i].2 =
        header ++ (List.range (i + 1)).flatMap (c.stepAt postings) := by
      rw [← htf]
      simp [range_succ, stepAt]
    rw [drop_eq_getElem_cons hlt, encodeLoop, hlen, hdelta, hstep, ← hdoc,
      SkipBuilder.behind_posting (h.placed c) hlt]
    exact ih (by omega) (fun _ => rfl) (by omega)

/-- Count, steps, trailer. -/
theorem encodePostings_eq (h : Encodable postings) :
    encodePostings c postings =
      (leBytes 4 (postings.length % 2 ^ 32) ++
        (List.range postings.length).flatMap (c.stepAt postings)) ++
      trailer c.withTf (blocksOf (docAt postings) (c.offset postings) postings.length) := by
  have hloop := encodeLoop_eq (c := c) h (length_leBytes 4 (postings.length % 2 ^ 32))
    (Nat.zero_le _) (show 0 < 0 → 0 = docAt postings (0 - 1) from fun h0 => absurd h0 (by decide))
  rw [range_zero, flatMap_nil, append_nil, drop_zero] at hloop
  rw [encodePostings, show SkipBuilder.new = SkipBuilder.behind (docAt postings)
    (c.offset postings) postings.length 0 from rfl, hloop]
  simp only [SkipBuilder.finish, SkipBuilder.behind_blocks (h.placed c)]

end Encoding

/-! ## The reader's state -/

namespace DeltaReader

variable {c : DeltaCodec} {postings : List Posting}

/-- Before posting `pos`, which is decoded or not. -/
structure Inv (postings : List Posting) (r : DeltaReader c) : Prop where
  count : r.count = postings.length
  payload : Holds r.data 4 ((List.range postings.length).flatMap (c.stepAt postings))
  payloadEnd : r.payloadEnd = c.offset postings postings.length
  covers : r.skip.Covers r.data (docAt postings) (c.offset postings) postings.length
  pos_le : r.pos ≤ postings.length
  lazy : r.current = none → r.bytePos = c.offset postings r.pos ∧
    (0 < r.pos → r.prev = docAt postings (r.pos - 1))
  decoded : ∀ p, r.current = some p → r.pos < postings.length ∧ p = c.stored postings r.pos ∧
    r.bytePos = c.offset postings (r.pos + 1) ∧ r.prev = docAt postings r.pos

/-- A fresh reader over an encoded list. -/
theorem new_eq (h : Encodable postings) :
    ∃ r, DeltaReader.new c (encodePostings c postings) = .ok r ∧ Inv postings r ∧ r.pos = 0 := by
  have hn := h.length_lt
  have hpos := h.nonempty
  have henc := encodePostings_eq (c := c) h
  have hblocks : (blocksOf (docAt postings) (c.offset postings) postings.length).length =
      blockCount postings.length := length_blocksOf
  have hfront : (leBytes 4 (postings.length % 2 ^ 32) ++
      (List.range postings.length).flatMap (c.stepAt postings)).length =
      c.offset postings postings.length := by
    rw [length_append, length_leBytes, DeltaCodec.offset]
  have hparse := SkipIndex.parse_eq c.withTf c.name
    (show 4 ≤ (leBytes 4 (postings.length % 2 ^ 32) ++
      (List.range postings.length).flatMap (c.stepAt postings)).length by
        rw [hfront, DeltaCodec.offset]; omega)
    (show 0 < (blocksOf (docAt postings) (c.offset postings) postings.length).length by
      rw [hblocks]; simp only [blockCount, ceilDiv, logicalBlockSize]; omega)
    hblocks (by rw [hblocks]; simp only [blockCount, ceilDiv, logicalBlockSize]; omega)
  rw [← henc, hfront, hblocks] at hparse
  have hdata := Holds.of_eq henc
  have hcount : leValue ((encodePostings c postings).take 4) = postings.length := by
    rw [henc, append_assoc, take_left' (length_leBytes 4 _), leValue_leBytes]
    omega
  have hlen : ¬ (encodePostings c postings).length < 4 := by
    have := hdata.le
    simp only [length_append, length_leBytes] at this
    omega
  have hpayload := hdata.left.right
  have htrailer := hdata.right
  rw [Nat.zero_add, length_leBytes] at hpayload
  rw [Nat.zero_add, hfront, trailer, ← append_assoc] at htrailer
  refine ⟨⟨encodePostings c postings, postings.length, 4, c.offset postings postings.length, 0, 0,
    none, ⟨c.offset postings postings.length, blockCount postings.length,
      countStrides (blockCount postings.length), entryWidth c.withTf, c.withTf⟩⟩,
    by simp only [new, if_neg hlen, hcount, hparse, ok_bind, pure_eq_ok], ?_, rfl⟩
  exact
    { count := rfl
      payload := hpayload
      payloadEnd := rfl
      covers := ⟨htrailer.left, rfl, rfl, rfl⟩
      pos_le := Nat.zero_le _
      lazy := fun _ => ⟨rfl, fun h0 => absurd h0 (Nat.lt_irrefl 0)⟩
      decoded := by simp }

variable {r : DeltaReader c}

/-- The bytes of each posting stand at its offset. -/
theorem Inv.posting_holds (h : Inv postings r) {i : Nat} (hi : i < postings.length) :
    Holds r.data (c.offset postings i) (c.stepAt postings i) := by
  have hget : (List.range postings.length)[i]? = some i := by simp [hi]
  have hstep := h.payload.flatMap hget
  rwa [startOf, take_range, Nat.min_eq_left hi.le] at hstep

/-- The reader with posting `pos` decoded. -/
def decodedAt (postings : List Posting) (r : DeltaReader c) : DeltaReader c :=
  { r with
    bytePos := c.offset postings (r.pos + 1)
    prev := docAt postings r.pos
    current := some (c.stored postings r.pos) }

/-- Decoding the posting at the position keeps the invariant. -/
theorem Inv.decodedAt (h : Inv postings r) (hlt : r.pos < postings.length) :
    Inv postings (r.decodedAt postings) :=
  { h with
    lazy := nofun
    decoded _ hp := ⟨hlt, (Option.some.inj hp).symm, rfl, rfl⟩ }

section

variable (henc : Encodable postings) (h : Inv postings r)

include henc h

/-- Decoding the next posting. -/
theorem Inv.decodeStep_eq (hnone : r.current = none)
    (hlt : r.pos < postings.length) :
    r.decodeStep = .ok (r.decodedAt postings) := by
  obtain ⟨hbyte, hprev⟩ := h.lazy hnone
  have hstep := h.posting_holds hlt
  have hnext := c.offset_succ postings r.pos
  have hend := c.offset_mono postings (show r.pos + 1 ≤ postings.length from hlt)
  rw [← h.payloadEnd] at hend
  have hlen : (c.stepAt postings r.pos).length =
      (writeU32 (deltaAt postings r.pos)).length + if c.withTf then 1 else 0 := by
    cases hc : c.withTf <;> simp [stepAt, DeltaCodec.step, hc]
  have hdelta : r.decodeDelta = .ok (deltaAt postings r.pos,
      c.offset postings r.pos + (writeU32 (deltaAt postings r.pos)).length) := by
    rw [decodeDelta, hbyte, decodeLoop_eq (by decide) (by simpa using henc.deltaAt_lt hlt)
      (by decide) hstep.left (by omega)]
    simp
  -- the first delta is the docid itself, later ones add up
  have hvalue : r.accumulate (deltaAt postings r.pos) = .ok (docAt postings r.pos) := by
    rw [accumulate, deltaAt]
    by_cases h0 : r.pos = 0
    · simp [h0]
    have hmono := henc.docAt_mono (show r.pos - 1 < r.pos by omega) hlt
    have hdoc := henc.docAt_lt hlt
    have hsum : r.prev + (docAt postings r.pos - docAt postings (r.pos - 1)) =
        docAt postings r.pos := by
      rw [hprev (by omega)]
      omega
    rw [if_neg h0, if_neg h0, hsum, if_pos hdoc]
  cases hc : c.withTf with
  | false =>
    simp only [hc, Bool.false_eq_true, if_false, Nat.add_zero] at hlen
    rw [hlen] at hnext
    simp [decodeStep, hdelta, hvalue, ok_bind, hc, pure_eq_ok, DeltaReader.decodedAt,
      DeltaCodec.stored, hnext]
  | true =>
    simp only [hc, if_true] at hlen
    rw [hlen, ← Nat.add_assoc] at hnext
    have htf := hstep.right
    rw [hc, if_pos rfl] at htf
    have htfNat : (UInt8.ofNat (min (tfAt postings r.pos) 255)).toNat =
        min (tfAt postings r.pos) 255 := by
      rw [UInt8.toNat_ofNat']
      omega
    have hin : ¬ r.payloadEnd ≤ c.offset postings r.pos +
        (writeU32 (deltaAt postings r.pos)).length := by omega
    simp [decodeStep, hdelta, hvalue, ok_bind, hc, pure_eq_ok, htf.head, expect_some, if_neg hin,
      htfNat, DeltaReader.decodedAt, DeltaCodec.stored, hnext]

/-- After filling, the posting at the index is there if any is left. -/
theorem Inv.fillCurrent_eq :
    ∃ r', r.fillCurrent = .ok r' ∧ Inv postings r' ∧ r'.pos = r.pos ∧
      r'.current = (c.readBack postings)[r.pos]? := by
  rw [fillCurrent, h.count, DeltaCodec.getElem?_readBack]
  cases hcur : r.current with
  | some p =>
    obtain ⟨hlt, hp, -, -⟩ := h.decoded p hcur
    exact ⟨r, by simp, h, rfl, by rw [if_pos hlt, hcur, hp]⟩
  | none =>
    by_cases hlt : r.pos < postings.length
    · refine ⟨r.decodedAt postings, ?_, h.decodedAt hlt, rfl, by rw [if_pos hlt]; rfl⟩
      simp [hlt, h.decodeStep_eq henc hcur hlt]
    · exact ⟨r, by simp [hlt], h, rfl, by rw [if_neg hlt, hcur]⟩

/-- Consuming the current posting moves on by one, up to the end. -/
theorem Inv.consume (hcur : r.current = some p) :
    Inv postings r.consume ∧ r.consume.pos = min (r.pos + 1) (c.readBack postings).length := by
  obtain ⟨hlt, -, hbyte, hprev⟩ := h.decoded p hcur
  have hn := henc.length_lt
  have hpos : r.consume.pos = r.pos + 1 := by
    simp only [DeltaReader.consume]
    omega
  rw [DeltaCodec.length_readBack, Nat.min_eq_left hlt]
  refine ⟨?_, hpos⟩
  exact
    { h with
      pos_le := by rw [hpos]; exact hlt
      lazy := by
        intro _
        rw [hpos]
        exact ⟨hbyte, fun _ => hprev⟩
      decoded := nofun }

/-- A peek answers the docid at the position and stays there. -/
theorem Inv.peek_eq :
    ∃ r', r.peek = .ok ((c.readBack postings)[r.pos]?.map Prod.fst, r') ∧ Inv postings r' ∧
      r'.pos = r.pos ∧ r'.current = (c.readBack postings)[r.pos]? := by
  obtain ⟨r', hr', hinv, hpos, hcur⟩ := h.fillCurrent_eq henc
  exact ⟨r', by simp only [peek, hr', ok_bind, hcur, pure_eq_ok], hinv, hpos, hcur⟩

/-- `next` answers it and moves on by one, up to the end. -/
theorem Inv.next_eq :
    ∃ r', r.next = .ok ((c.readBack postings)[r.pos]?.map Prod.fst, r') ∧ Inv postings r' ∧
      r'.pos = min (r.pos + 1) (c.readBack postings).length := by
  obtain ⟨r', hr', hinv, hpos, hcur⟩ := h.peek_eq henc
  cases hp : (c.readBack postings)[r.pos]? with
  | none =>
    refine ⟨r', by simp [next, hr', hp], hinv, ?_⟩
    have hge := getElem?_eq_none_iff.mp hp
    have hle := h.pos_le
    rw [← c.length_readBack postings] at hle
    omega
  | some p =>
    rw [hp] at hcur
    obtain ⟨hinv', hpos'⟩ := hinv.consume henc hcur
    exact ⟨r'.consume, by simp [next, hr', hp], hinv', by rw [hpos', hpos]⟩

/-- A jump passes over docids below the target only. -/
theorem Inv.jumpToward_eq (hcur : r.current = some p) (target : Nat) :
    ∃ r', r.jumpToward target = .ok r' ∧ Inv postings r' ∧ r.pos ≤ r'.pos ∧
      ∀ i, r.pos ≤ i → i < r'.pos → docAt postings i < target := by
  have hstay : Inv postings r ∧ r.pos ≤ r.pos ∧
      ∀ i, r.pos ≤ i → i < r.pos → docAt postings i < target :=
    ⟨h, Nat.le_refl _, fun i h1 h2 => absurd h1 (Nat.not_le.mpr h2)⟩
  rw [jumpToward]
  by_cases hempty : r.skip.isEmpty
  · exact ⟨r, by simp only [hempty, if_true, pure_eq_ok], hstay⟩
  obtain ⟨ans, hans, hland⟩ := h.covers.jumpLanding_spec (henc.placed c) target r.bytePos
  simp only [hempty, hans, ok_bind]
  cases ans with
  | none => exact ⟨r, by simp, hstay⟩
  | some x =>
    obtain ⟨b, hb, hx, hahead, hbelow⟩ := hland x rfl
    obtain ⟨hlt, -, hbyte, -⟩ := h.decoded p hcur
    -- the landing lies behind the decoded posting, so it is not the first block
    have hforward : r.pos + 1 < b * 128 := by
      by_contra hle
      have := c.offset_mono postings (Nat.not_lt.mp hle)
      omega
    have hb0 : b ≠ 0 := by omega
    rw [if_neg hb0] at hx
    refine ⟨⟨r.data, r.count, c.offset postings (b * 128), r.payloadEnd, b * 128,
      docAt postings (b * 128 - 1), none, r.skip⟩, by simp [hx], ?_, ?_, ?_⟩
    · exact
        { h with
          pos_le := hb.le
          lazy := fun _ => ⟨rfl, fun _ => rfl⟩
          decoded := by simp }
    · simp only
      omega
    · intro i _ hi
      have hi' : i < b * 128 := hi
      exact Nat.lt_of_le_of_lt ((henc.placed c).doc_le (by omega) (by omega)) (hbelow (by omega))

omit henc in
/-- The posting at the reader's index, as an advance finds it. -/
theorem Inv.here_or_below (target : Nat) :
    ((c.readBack postings)[r.pos]? = none ∧
        Lands ((c.readBack postings).map Prod.fst) target r.pos r.pos) ∨
      ∃ p, (c.readBack postings)[r.pos]? = some p ∧ r.pos < postings.length ∧
        (target ≤ p.1 ∧ Lands ((c.readBack postings).map Prod.fst) target r.pos r.pos ∨
          ¬ target ≤ p.1) := by
  have hpos : r.pos ≤ ((c.readBack postings).map Prod.fst).length := by
    rw [length_map, c.length_readBack]
    exact h.pos_le
  have hcases := Lands.here_or_below hpos target
  simpa [c.length_readBack] using hcases

/-- The loop stops at the first docid from the position on that is not below the
target. -/
theorem Inv.advanceLoop_eq (target : Nat) (hfuel : postings.length - r.pos < fuel) :
    ∃ r', advanceLoop target fuel r = .ok ((c.readBack postings)[r'.pos]?.map Prod.fst, r') ∧
      Inv postings r' ∧ Lands ((c.readBack postings).map Prod.fst) target r.pos r'.pos := by
  induction fuel generalizing r with
  | zero => omega
  | succ fuel ih =>
    obtain ⟨r1, hr1, hinv1, hpos1, hcur1⟩ := h.peek_eq henc
    obtain ⟨hp, hstay⟩ | ⟨p, hp, hlt, ⟨hreach, hstay⟩ | hlow⟩ := h.here_or_below target
    · exact ⟨r1, by simp [advanceLoop, hr1, hp, hpos1], hinv1, hpos1 ▸ hstay⟩
    · exact ⟨r1, by simp [advanceLoop, hr1, hp, hreach, hpos1], hinv1, hpos1 ▸ hstay⟩
    obtain ⟨r2, hr2, hinv2, hpos2⟩ := hinv1.next_eq henc
    rw [hpos1, c.length_readBack, Nat.min_eq_left hlt] at hpos2
    obtain ⟨r3, hr3, hinv3, hlands⟩ := ih hinv2 (by omega)
    refine ⟨r3, by simp [advanceLoop, hr1, hp, hlow, hr2, hr3], hinv3, ?_⟩
    rw [hpos2] at hlands
    exact hlands.of_succ (by rw [getElem?_map, hp]; rfl) hlow

/-- So does an advance that skips blocks first. -/
theorem Inv.advance_eq (target : Nat) :
    ∃ r', r.advance target = .ok ((c.readBack postings)[r'.pos]?.map Prod.fst, r') ∧
      Inv postings r' ∧ Lands ((c.readBack postings).map Prod.fst) target r.pos r'.pos := by
  obtain ⟨r1, hr1, hinv1, hpos1, hcur1⟩ := h.peek_eq henc
  obtain ⟨hp, hstay⟩ | ⟨p, hp, hlt, ⟨hreach, hstay⟩ | hlow⟩ := h.here_or_below target
  · exact ⟨r1, by simp [advance, hr1, hp, hpos1], hinv1, hpos1 ▸ hstay⟩
  · exact ⟨r1, by simp [advance, hr1, hp, hreach, hpos1], hinv1, hpos1 ▸ hstay⟩
  rw [hp] at hcur1
  obtain ⟨r2, hr2, hinv2, hge, hbelow⟩ := hinv1.jumpToward_eq henc hcur1 target
  obtain ⟨r3, hr3, hinv3, hlands⟩ := hinv2.advanceLoop_eq henc target
    (show postings.length - r2.pos < r2.count - r2.pos + 1 by rw [hinv2.count]; omega)
  refine ⟨r3, by simp [advance, hr1, hp, hlow, hr2, hr3], hinv3, ?_⟩
  rw [hpos1] at hge hbelow
  refine Lands.of_le hge ?_ hlands
  intro i d hi hi' hd
  rw [← (c.docAt_of_readBack postings hd).2]
  exact hbelow i hi hi'

omit h in
/-- The reader over an encoded list tracks the list as read back. -/
theorem tracks :
    Tracks (c.readBack postings) (Inv postings : DeltaReader c → Prop) where
  len h := by rw [c.length_readBack]; exact h.count
  pos_le h := by rw [c.length_readBack]; exact h.pos_le
  peek h := by
    obtain ⟨r', hr', hinv, hpos, -⟩ := h.peek_eq henc
    exact ⟨r', hr', hinv, hpos⟩
  next h := h.next_eq henc
  advance target h := h.advance_eq henc target
  tf {r} h := by
    obtain ⟨r', hr', hinv, hpos, hcur⟩ := h.peek_eq henc
    obtain ⟨r'', hr'', hinv', hpos', hcur'⟩ := h.fillCurrent_eq henc
    simp only [PostingReader.tf, PostingReader.pos, tf]
    cases hc : c.withTf with
    | false =>
      refine ⟨r', ?_, hinv, hpos⟩
      simp [hr', readBack, hc, Function.comp_def]
    | true => exact ⟨r'', by simp [hr'', hcur'], hinv', hpos'⟩
  nextStep {r} h := by
    obtain ⟨r', hr', hinv, hpos⟩ := h.next_eq henc
    obtain ⟨r'', hr'', hinv', hpos', hcur'⟩ := h.fillCurrent_eq henc
    simp only [PostingReader.nextStep, PostingReader.pos, nextStep]
    cases hc : c.withTf with
    | false =>
      refine ⟨r', ?_, hinv, hpos⟩
      simp [hr', readBack, hc, Function.comp_def]
    | true =>
      cases hp : (c.readBack postings)[r.pos]? with
      | none =>
        rw [hp] at hcur'
        refine ⟨r'', by simp [hr'', hcur'], hinv', ?_⟩
        have hge := getElem?_eq_none_iff.mp hp
        have hle := h.pos_le
        rw [c.length_readBack] at hge ⊢
        omega
      | some p =>
        rw [hp] at hcur'
        obtain ⟨hinv'', hpos''⟩ := hinv'.consume henc hcur'
        exact ⟨r''.consume, by simp [hr'', hcur'], hinv'', by rw [hpos'', hpos']⟩

end

end DeltaReader

end Gleaph.Postings
