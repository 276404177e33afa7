import Gleaph.Postings.EliasFano
import Gleaph.Postings.Frame.Sound

/-!
# Gleaph.Postings.EliasFano.Sound

The Elias-Fano reader tracks the encoded list.

Posting `i` sets bit `unaryAt i = high + i` of the unary vector.  These
positions increase with `i`, so the scan behind bit `unaryAt (k - 1)` next
finds `unaryAt k` (`scanOne_eq`), and the window always holds the high parts
of the postings between the reader's index and the scan (`Inv`).
-/

namespace Gleaph.Postings

open List

/-! ## Bit vectors -/

/-- Bit `p` of a vector of 64-bit words. -/
def bitAt (words : List Nat) (p : Nat) : Bool := (words.getD (p / 64) 0).testBit (p % 64)

/-- Setting a bit changes that bit alone. -/
theorem bitAt_setBit (hp : p / 64 < words.length) (q : Nat) :
    bitAt (setBit words p) q = (bitAt words q || decide (q = p)) := by
  by_cases hw : p / 64 = q / 64
  · have hq : q / 64 < words.length := hw ▸ hp
    have hone : (1 <<< (p % 64)).testBit (q % 64) = decide (q = p) := by
      rw [Nat.shiftLeft_eq, Nat.one_mul, Nat.testBit_two_pow]
      exact decide_eq_decide.mpr (by omega)
    simp only [bitAt, setBit, getD_eq_getElem?_getD, hw, getElem?_modify_eq,
      getElem?_eq_getElem hq, Option.map_eq_map, Option.map_some, Option.getD_some,
      Nat.testBit_or, hone]
  · have hne : q ≠ p := fun h => hw (h ▸ rfl)
    simp only [bitAt, setBit, getD_eq_getElem?_getD, getElem?_modify_ne _ _ hw, hne,
      decide_false, Bool.or_false]

theorem setBit_lt (h : ∀ w ∈ words, w < 2 ^ 64) (p : Nat) : ∀ w ∈ setBit words p, w < 2 ^ 64 := by
  intro w hw
  obtain ⟨i, hi, rfl⟩ := getElem_of_mem hw
  simp only [setBit, getElem_modify]
  rw [setBit, length_modify] at hi
  have hold := h _ (getElem_mem hi)
  split
  · refine Nat.or_lt_two_pow hold ?_
    rw [Nat.shiftLeft_eq, Nat.one_mul]
    exact Nat.pow_lt_pow_right (by decide) (Nat.mod_lt _ (by decide))
  · exact hold

/-- Setting bits one after the other. -/
theorem foldl_setBit {bits : List Nat} (hbits : ∀ p ∈ bits, p / 64 < words.length)
    (hwords : ∀ w ∈ words, w < 2 ^ 64) :
    (bits.foldl setBit words).length = words.length ∧
      (∀ w ∈ bits.foldl setBit words, w < 2 ^ 64) ∧
      ∀ q, bitAt (bits.foldl setBit words) q = (bitAt words q || decide (q ∈ bits)) := by
  induction bits generalizing words with
  | nil => exact ⟨rfl, hwords, by simp⟩
  | cons p bits ih =>
    have hlen : (setBit words p).length = words.length := by rw [setBit, length_modify]
    obtain ⟨h1, h2, h3⟩ := ih (fun q hq => by rw [hlen]; exact hbits q (by simp [hq]))
      (setBit_lt hwords p)
    refine ⟨by rw [foldl_cons, h1, hlen], h2, ?_⟩
    intro q
    rw [foldl_cons, h3, bitAt_setBit (hbits p (by simp)), Bool.or_assoc]
    congr 1
    simp [mem_cons]

/-! ## Scanning a word -/

/-- Clearing the bits below a position. -/
theorem testBit_masked (hword : word < 2 ^ 64) (hbit : bit < 64) (j : Nat) :
    (if bit = 0 then word else word &&& ((2 ^ 64 - 1) - ((1 <<< bit) - 1))).testBit j =
      (word.testBit j && decide (bit ≤ j)) := by
  by_cases h0 : bit = 0
  · simp [h0]
  have hmask : (2 ^ 64 - 1) - ((1 <<< bit) - 1) = 2 ^ 64 - ((2 ^ bit - 1) + 1) := by
    rw [Nat.shiftLeft_eq]
    have := Nat.two_pow_pos bit
    omega
  have hlt : 2 ^ bit - 1 < 2 ^ 64 := by
    have : 2 ^ bit < 2 ^ 64 := Nat.pow_lt_pow_right (by decide) hbit
    omega
  rw [if_neg h0, hmask, Nat.testBit_and, Nat.testBit_two_pow_sub_succ hlt,
    Nat.testBit_two_pow_sub_one]
  by_cases hj : j < 64
  · by_cases hle : bit ≤ j
    · simp [hj, hle, Nat.not_lt.mpr hle]
    · simp [hj, hle, Nat.not_le.mp hle]
  · have : word.testBit j = false :=
      Nat.testBit_lt_two_pow (hword.trans_le (Nat.pow_le_pow_right (by decide) (by omega)))
    simp [this]

/-! ## The unary vector of a list -/

/-- High part of posting `i`. -/
def highAt (l : Nat) (docs : List Nat) (i : Nat) : Nat := docs.getD i 0 >>> l

/-- Its bit in the unary vector. -/
def unaryAt (l : Nat) (docs : List Nat) (i : Nat) : Nat := highAt l docs i + i

/-- The list's low width. -/
def efWidth (docs : List Nat) : Nat := lowWidth (docs.getLastD 0) docs.length

/-- The number of its unary words. -/
def efWords (docs : List Nat) : Nat := ((docs.getLastD 0 >>> efWidth docs) + docs.length) / 64 + 1

/-- A low part has at most 31 bits. -/
theorem efWidth_le (docs : List Nat) : efWidth docs ≤ 31 := by
  rw [efWidth, lowWidth]
  split
  · omega
  · split <;> omega

section Unary

variable {docs : List Nat} (h : DocList docs) (l : Nat)

include h

/-- The high parts do not decrease. -/
theorem DocList.highAt_le (hij : i ≤ j) (hj : j < docs.length) :
    highAt l docs i ≤ highAt l docs j := by
  have hle : docs.getD i 0 ≤ docs.getD j 0 := by
    by_cases heq : i = j
    · rw [heq]
    have hi : i < docs.length := by omega
    rw [getD_eq_getElem _ _ hi, getD_eq_getElem _ _ hj]
    exact (pairwise_iff_getElem.mp h.increasing i j hi hj (by omega)).le
  rw [highAt, highAt, Nat.shiftRight_eq_div_pow, Nat.shiftRight_eq_div_pow]
  exact Nat.div_le_div_right hle

/-- So the set bits of the unary code stand at increasing places. -/
theorem DocList.unaryAt_lt (hij : i < j) (hj : j < docs.length) :
    unaryAt l docs i < unaryAt l docs j := by
  have := h.highAt_le l hij.le hj
  rw [unaryAt, unaryAt]
  omega

/-- All of them within the words that are allotted. -/
theorem DocList.unaryAt_bound {i : Nat} (hi : i < docs.length) :
    unaryAt l docs i < (docs.getLastD 0 >>> l) + docs.length := by
  have hle : docs.getD i 0 ≤ docs.getLastD 0 := by
    rw [getD_eq_getElem _ _ hi]
    exact le_getLastD_of_mem h.increasing (getElem_mem hi)
  have : docs.getD i 0 >>> l ≤ docs.getLastD 0 >>> l := by
    rw [Nat.shiftRight_eq_div_pow, Nat.shiftRight_eq_div_pow]
    exact Nat.div_le_div_right hle
  rw [unaryAt, highAt]
  omega

theorem DocList.getLastD_lt : docs.getLastD 0 < 2 ^ 32 := by
  have hpos := h.nonempty
  rw [getLastD_eq_getLast?, getLast?_eq_getElem?,
    getElem?_eq_getElem (show docs.length - 1 < docs.length by omega), Option.getD_some]
  exact h.docid_lt _ (getElem_mem _)

/-- Exactly the postings' bits are set. -/
theorem DocList.unaryWords_spec :
    (unaryWords (efWidth docs) (efWords docs) docs).length = efWords docs ∧
      (∀ w ∈ unaryWords (efWidth docs) (efWords docs) docs, w < 2 ^ 64) ∧
      ∀ q, bitAt (unaryWords (efWidth docs) (efWords docs) docs) q = true ↔
        ∃ i, i < docs.length ∧ unaryAt (efWidth docs) docs i = q := by
  have hfold : unaryWords (efWidth docs) (efWords docs) docs =
      (docs.zipIdx.map fun x => (x.1 >>> efWidth docs) + x.2).foldl setBit
        (List.replicate (efWords docs) 0) := by
    rw [foldl_map]
    rfl
  have hmem : ∀ q, q ∈ (docs.zipIdx.map fun x => (x.1 >>> efWidth docs) + x.2) ↔
      ∃ i, i < docs.length ∧ unaryAt (efWidth docs) docs i = q := by
    intro q
    simp only [mem_map, Prod.exists, mk_mem_zipIdx_iff_getElem?, unaryAt, highAt]
    constructor
    · intro ⟨d, i, hd, hq⟩
      obtain ⟨hi, rfl⟩ := List.getElem?_eq_some_iff.mp hd
      exact ⟨i, hi, by rw [getD_eq_getElem _ _ hi, hq]⟩
    · intro ⟨i, hi, hq⟩
      exact ⟨docs[i], i, getElem?_eq_getElem hi, by rw [← hq, getD_eq_getElem _ _ hi]⟩
  have hbits : ∀ p ∈ (docs.zipIdx.map fun x => (x.1 >>> efWidth docs) + x.2),
      p / 64 < (List.replicate (efWords docs) 0).length := by
    intro p hp
    obtain ⟨i, hi, rfl⟩ := (hmem p).mp hp
    have := h.unaryAt_bound (efWidth docs) hi
    rw [length_replicate, efWords]
    omega
  obtain ⟨h1, h2, h3⟩ := foldl_setBit hbits (by simp)
  rw [hfold]
  refine ⟨by rw [h1, length_replicate], h2, fun q => ?_⟩
  rw [h3, ← hmem]
  have hzero : bitAt (List.replicate (efWords docs) 0) q = false := by
    simp [bitAt]
  simp [hzero]

end Unary

/-! ## The reader's state -/

namespace EfReader

variable {docs : List Nat}

/-- The scan stands behind posting `scanDone - 1`, the window spans from `pos`
to it. -/
structure Inv (docs : List Nat) (r : EfReader) : Prop where
  count : r.count = docs.length
  width : r.l = efWidth docs
  words : ∀ w, w < efWords docs →
    r.word w = .ok ((unaryWords (efWidth docs) (efWords docs) docs).getD w 0)
  length : efWords docs ≤ r.data.length
  lows : ∀ i d, docs[i]? = some d → r.readLow i = .ok (d % 2 ^ efWidth docs)
  pos_le : r.pos ≤ r.scanDone
  scan_le : r.scanDone ≤ docs.length
  window : r.highs =
    (List.range' r.pos (r.scanDone - r.pos)).map (highAt (efWidth docs) docs)
  behind : r.scanBit = if r.scanDone = 0 then 0 else unaryAt (efWidth docs) docs (r.scanDone - 1) + 1

variable {r : EfReader}

/-- The scan finds the first set bit from its start on. -/
theorem scanLoop_eq (hread : ∀ w, w < words.length → r.word w = .ok (words.getD w 0))
    (hwords : ∀ w ∈ words, w < 2 ^ 64) (hbit : bit < 64) (hle : w * 64 + bit ≤ q)
    (hq : bitAt words q = true) (hin : q / 64 < words.length)
    (hbelow : ∀ p, w * 64 + bit ≤ p → p < q → bitAt words p = false) (hfuel : q / 64 < w + fuel) :
    r.scanLoop fuel w bit = .ok q := by
  induction fuel generalizing w bit with
  | zero => omega
  | succ fuel ih =>
    have hw : w < words.length := by omega
    have hword : words.getD w 0 < 2 ^ 64 := by
      rw [getD_eq_getElem _ _ hw]
      exact hwords _ (getElem_mem hw)
    have hbits : ∀ j, j < 64 → (words.getD w 0).testBit j = bitAt words (w * 64 + j) := by
      intro j hj
      rw [bitAt, show (w * 64 + j) / 64 = w by omega, show (w * 64 + j) % 64 = j by omega]
    have hmask := testBit_masked hword hbit
    simp only [scanLoop, hread w hw, ok_bind]
    generalize (if bit = 0 then words.getD w 0
      else words.getD w 0 &&& ((2 ^ 64 - 1) - ((1 <<< bit) - 1))) = masked at hmask ⊢
    by_cases hhere : q / 64 = w
    · -- the bit lies in this word
      have hset : masked.testBit (q % 64) = true := by
        rw [hmask, hbits _ (Nat.mod_lt _ (by decide)), show w * 64 + q % 64 = q by omega, hq]
        simp only [Bool.true_and, decide_eq_true_eq]
        omega
      have hne : masked ≠ 0 := by
        intro hzero
        simp [hzero] at hset
      have htz : trailingZeros masked = q % 64 := by
        have hfind : (List.range 64).find? (fun i => masked.testBit i) = some (q % 64) := by
          rw [find?_range_eq_some]
          refine ⟨hset, mem_range.mpr (Nat.mod_lt _ (by decide)), fun i hi => ?_⟩
          rw [hmask]
          by_cases hib : bit ≤ i
          · rw [hbits i (by omega), hbelow (w * 64 + i) (by omega) (by omega), Bool.false_and]
            rfl
          · simp [hib]
        rw [trailingZeros, hfind, Option.getD_some]
      rw [if_pos hne, htz, pure_eq_ok, show w * 64 + q % 64 = q by omega]
    · have hzero : masked = 0 := by
        refine Nat.eq_of_testBit_eq fun j => ?_
        rw [hmask, Nat.zero_testBit]
        by_cases hj : j < 64
        · by_cases hjb : bit ≤ j
          · rw [hbits j hj, hbelow (w * 64 + j) (by omega) (by omega), Bool.false_and]
          · simp [hjb]
        · rw [Nat.testBit_lt_two_pow (hword.trans_le (Nat.pow_le_pow_right (by decide) (by omega))),
            Bool.false_and]
      rw [if_neg (by simp [hzero])]
      exact ih (by decide) (by omega) (fun p hp hpq => hbelow p (by omega) hpq) (by omega)

/-- High and low bits make up the docid. -/
theorem high_or_low {l : Nat} (hd : d < 2 ^ 32) : ((d >>> l) <<< l) % 2 ^ 32 ||| d % 2 ^ l = d := by
  have hsplit : 2 ^ l * (d / 2 ^ l) + d % 2 ^ l = d := Nat.div_add_mod d (2 ^ l)
  rw [Nat.shiftRight_eq_div_pow, Nat.shiftLeft_eq, Nat.mul_comm, Nat.mod_eq_of_lt (by omega),
    ← Nat.two_pow_add_eq_or_of_lt (Nat.mod_lt d (Nat.two_pow_pos l)), hsplit]

/-- A posting with a smaller high part is smaller. -/
theorem lt_of_highAt_lt {l : Nat} (hd : docs[i]? = some d) (h : highAt l docs i < target >>> l) :
    d < target := by
  rw [highAt, getD_eq_getElem?_getD, hd, Option.getD_some, Nat.shiftRight_eq_div_pow,
    Nat.shiftRight_eq_div_pow] at h
  by_contra hle
  exact absurd (Nat.div_le_div_right (c := 2 ^ l) (Nat.not_lt.mp hle)) (Nat.not_le.mpr h)

/-- One posting more may be passed over. -/
theorem below_succ {pos : Nat} (h : ∀ i d, pos + 1 ≤ i → i < mid → docs[i]? = some d → d < target)
    (hx : docs[pos]? = some x) (hlt : x < target) :
    ∀ i d, pos ≤ i → i < mid → docs[i]? = some d → d < target := by
  intro i d hi hi' hd
  by_cases heq : i = pos
  · rw [heq, hx, Option.some.injEq] at hd
    omega
  · exact h i d (by omega) hi' hd

/-- The reader with one more high part in the window. -/
def fetched (docs : List Nat) (r : EfReader) : EfReader :=
  { r with
    highs := r.highs ++ [highAt (efWidth docs) docs r.scanDone]
    scanDone := r.scanDone + 1
    scanBit := unaryAt (efWidth docs) docs r.scanDone + 1 }

section Reads

variable (hr : Inv docs r)

include hr

/-- Fetching one more high part keeps the invariant. -/
theorem Inv.fetched (hlt : r.scanDone < docs.length) :
    Inv docs (r.fetched docs) :=
  { hr with
    pos_le := Nat.le_succ_of_le hr.pos_le
    scan_le := hlt
    window := by
      have hlen : r.scanDone + 1 - r.pos = (r.scanDone - r.pos) + 1 := by
        have := hr.pos_le
        omega
      have hend : r.pos + (r.scanDone - r.pos) = r.scanDone := Nat.add_sub_cancel' hr.pos_le
      simp only [EfReader.fetched, hr.window, hlen, range'_1_concat, map_append, map_cons,
        map_nil, hend]
    behind := by simp [EfReader.fetched] }

/-- The window of fetched high parts starts at the position. -/
theorem Inv.window_cons (hlt : r.pos < r.scanDone) :
    r.highs = highAt (efWidth docs) docs r.pos ::
      (List.range' (r.pos + 1) (r.scanDone - (r.pos + 1))).map (highAt (efWidth docs) docs) := by
  rw [hr.window, show r.scanDone - r.pos = (r.scanDone - (r.pos + 1)) + 1 by omega, range'_succ,
    map_cons]

/-- Behind the last posting. -/
theorem Inv.exhausted (hpos : ¬ r.pos < r.scanDone) (hend : r.count ≤ r.scanDone) :
    Inv docs { r with pos := r.count } ∧ r.pos = docs.length := by
  have hle := hr.pos_le
  have hscan := hr.scan_le
  rw [hr.count] at hend
  have heq : r.pos = docs.length := by omega
  have hcount : r.count = r.pos := by rw [hr.count, heq]
  refine ⟨{ hr with pos_le := hcount.le.trans hle, window := ?_ }, heq⟩
  simp only [hcount]
  exact hr.window

variable (h : DocList docs)

include h

/-- The scan finds the next posting's high part. -/
theorem Inv.scanOne_eq (hlt : r.scanDone < docs.length) :
    r.scanOne = .ok (highAt (efWidth docs) docs r.scanDone,
      { r with scanBit := unaryAt (efWidth docs) docs r.scanDone + 1 }) := by
  have hn := h.length_lt
  obtain ⟨hlen, hwords, hset⟩ := h.unaryWords_spec
  have hscan : r.scanLoop (r.data.length + 1) (r.scanBit / 64) (r.scanBit % 64) =
      .ok (unaryAt (efWidth docs) docs r.scanDone) := by
    have hsplit : r.scanBit / 64 * 64 + r.scanBit % 64 = r.scanBit := by omega
    have hbound := h.unaryAt_bound (efWidth docs) hlt
    have hin : unaryAt (efWidth docs) docs r.scanDone / 64 <
        (unaryWords (efWidth docs) (efWords docs) docs).length := by
      rw [hlen, efWords]
      omega
    refine scanLoop_eq (by rw [hlen]; exact hr.words) hwords (Nat.mod_lt _ (by decide)) ?_
      ((hset _).mpr ⟨r.scanDone, hlt, rfl⟩) hin ?_ ?_
    · rw [hsplit, hr.behind]
      split
      · omega
      · have := h.unaryAt_lt (efWidth docs) (show r.scanDone - 1 < r.scanDone by omega) hlt
        omega
    · intro p hp hpq
      rw [hsplit, hr.behind] at hp
      by_contra hbit
      obtain ⟨i, hi, rfl⟩ := (hset p).mp (by simpa using hbit)
      -- a bit between two consecutive postings would belong to a third
      by_cases hik : i < r.scanDone
      · rw [if_neg (by omega)] at hp
        by_cases heq : i = r.scanDone - 1
        · rw [heq] at hp
          omega
        · have := h.unaryAt_lt (efWidth docs) (show i < r.scanDone - 1 by omega) (by omega)
          omega
      · by_cases heq : i = r.scanDone
        · rw [heq] at hpq
          omega
        · have := h.unaryAt_lt (efWidth docs) (show r.scanDone < i by omega) hi
          omega
    · have := hr.length
      rw [hlen] at hin
      omega
  have hdoc : docs.getD r.scanDone 0 < 2 ^ 32 := by
    rw [getD_eq_getElem _ _ hlt]
    exact h.docid_lt _ (getElem_mem hlt)
  have hhigh : highAt (efWidth docs) docs r.scanDone ≤ docs.getD r.scanDone 0 := by
    rw [highAt, Nat.shiftRight_eq_div_pow]
    exact Nat.div_le_self _ _
  have hsub : (unaryAt (efWidth docs) docs r.scanDone % 2 ^ 32 + 2 ^ 32 - r.scanDone) % 2 ^ 32 =
      highAt (efWidth docs) docs r.scanDone := by
    rw [unaryAt]
    omega
  simp only [scanOne, hscan, ok_bind, hsub, pure_eq_ok]

theorem Inv.pushHigh_eq (hlt : r.scanDone < docs.length) :
    ∃ high r', r.scanOne = .ok (high, r') ∧ r'.pushHigh high = r.fetched docs := by
  refine ⟨_, _, hr.scanOne_eq h hlt, ?_⟩
  have hn := h.length_lt
  have hmod : (r.scanDone + 1) % 2 ^ 32 = r.scanDone + 1 := by omega
  simp only [pushHigh, hmod, EfReader.fetched]

theorem Inv.dropHead (hlt : r.pos < r.scanDone) :
    Inv docs r.dropHead ∧ r.dropHead.pos = r.pos + 1 := by
  have hn := h.length_lt
  have hscan := hr.scan_le
  have hpos : r.dropHead.pos = r.pos + 1 := by
    simp only [EfReader.dropHead]
    omega
  refine ⟨?_, hpos⟩
  exact
    { hr with
      pos_le := by rw [hpos]; exact hlt
      window := by
        rw [hpos]
        simp only [EfReader.dropHead, hr.window_cons hlt, tail_cons] }

/-- High and low part of the first in the window are its docid. -/
theorem Inv.headValue_eq (hlt : r.pos < r.scanDone) (hd : docs[r.pos]? = some d) :
    r.headValue = .ok d := by
  have hdoc : docs.getD r.pos 0 = d := by rw [getD_eq_getElem?_getD, hd, Option.getD_some]
  have hbound := h.docid_lt d (mem_of_getElem? hd)
  simp only [headValue, hr.window_cons hlt, head?_cons, expect_some, ok_bind, hr.lows _ _ hd,
    pure_eq_ok, hr.width, highAt, hdoc, high_or_low hbound]

/-- Buffering through the index puts its posting at the window's head. -/
theorem Inv.bufferThrough_eq (hlt : r.pos < docs.length) :
    ∃ r', r.bufferThrough r.pos = .ok r' ∧ Inv docs r' ∧ r'.pos = r.pos ∧ r'.pos < r'.scanDone := by
  by_cases hready : r.pos < r.scanDone
  · refine ⟨r, ?_, hr, rfl, hready⟩
    rw [bufferThrough, show r.pos + 1 - r.scanDone = 0 by omega]
    rfl
  have hpos := hr.pos_le
  have heq : r.scanDone = r.pos := by omega
  have hlt' : r.scanDone < docs.length := by omega
  obtain ⟨high, r1, hscan, hpush⟩ := hr.pushHigh_eq h hlt'
  have hcount : ¬ r.count ≤ r.scanDone := by
    rw [hr.count]
    omega
  refine ⟨r.fetched docs, ?_, hr.fetched hlt', rfl, by simp only [EfReader.fetched]; omega⟩
  rw [bufferThrough, show r.pos + 1 - r.scanDone = 0 + 1 by omega]
  simp only [bufferLoop, if_neg hcount, hscan, ok_bind, hpush]

/-- A peek answers the docid at the position and stays there, with that docid in
the window. -/
theorem Inv.peek_eq :
    ∃ r', r.peek = .ok (docs[r.pos]?, r') ∧ Inv docs r' ∧ r'.pos = r.pos ∧
      (r.pos < docs.length → r'.pos < r'.scanDone) := by
  rw [peek, hr.count]
  by_cases hend : docs.length ≤ r.pos
  · exact ⟨r, by simp [hend], hr, rfl, fun hlt => absurd hend (by omega)⟩
  have hlt := Nat.not_le.mp hend
  obtain ⟨r', hr', hinv, hpos, hready⟩ := hr.bufferThrough_eq h hlt
  have hd : docs[r'.pos]? = some docs[r.pos] := by rw [hpos, getElem?_eq_getElem hlt]
  refine ⟨r', ?_, hinv, hpos, fun _ => hready⟩
  simp [if_neg hend, hr', ok_bind, hinv.headValue_eq h hready hd, pure_eq_ok]

/-- `next` answers the docid at the position and moves on by one, up to the end.
-/
theorem Inv.next_eq :
    ∃ r', r.next = .ok (docs[r.pos]?, r') ∧ Inv docs r' ∧ r'.pos = min (r.pos + 1) docs.length := by
  obtain ⟨r', hr', hinv, hpos, hready⟩ := hr.peek_eq h
  cases hd : docs[r.pos]? with
  | none =>
    have hge := getElem?_eq_none_iff.mp hd
    have hle := hr.pos_le.trans hr.scan_le
    exact ⟨r', by simp [next, hr', hd], hinv, by omega⟩
  | some d =>
    have hlt := (List.getElem?_eq_some_iff.mp hd).1
    obtain ⟨hinv', hpos'⟩ := hinv.dropHead h (hready hlt)
    exact ⟨r'.dropHead, by simp [next, hr', hd], hinv', by omega⟩

/-! ## Advancing -/

/-- The first loop passes over docids below the target only. -/
theorem Inv.discardLoop_eq (target : Nat) (hfuel : docs.length - r.pos < fuel) :
    ∃ done r', discardLoop (target >>> efWidth docs) fuel r = .ok (done, r') ∧ Inv docs r' ∧
      r.pos ≤ r'.pos ∧ (∀ i d, r.pos ≤ i → i < r'.pos → docs[i]? = some d → d < target) ∧
      (done = true → r'.pos = docs.length) := by
  induction fuel generalizing r with
  | zero => omega
  | succ fuel ih =>
    have hscan := hr.scan_le
    have hpos := hr.pos_le
    have hn := h.length_lt
    rw [discardLoop]
    by_cases hready : r.pos < r.scanDone
    · have hd : docs[r.pos]? = some docs[r.pos] := getElem?_eq_getElem (by omega)
      simp only [if_pos hready, hr.window_cons hready, head?_cons, expect_some, ok_bind]
      by_cases hlt : highAt (efWidth docs) docs r.pos < target >>> efWidth docs
      · obtain ⟨hinv, hpos'⟩ := hr.dropHead h hready
        obtain ⟨done, r', hr', hinv', hge, hbelow, hdone⟩ := ih hinv (by omega)
        rw [hpos'] at hge hbelow
        refine ⟨done, r', by simp only [if_pos hlt, hr'], hinv', by omega, ?_, hdone⟩
        exact below_succ hbelow hd (lt_of_highAt_lt hd hlt)
      · exact ⟨false, r, by simp only [if_neg hlt, pure_eq_ok], hr, Nat.le_refl _,
          fun i d hi hi' => absurd hi (by omega), nofun⟩
    · simp only [if_neg hready]
      by_cases hend : r.count ≤ r.scanDone
      · obtain ⟨hinv, heq⟩ := hr.exhausted hready hend
        refine ⟨true, { r with pos := r.count }, by simp only [if_pos hend, pure_eq_ok], hinv, ?_, ?_,
          fun _ => hr.count⟩
        · simp only [hr.count]
          omega
        intro i d hi hi'
        simp only [hr.count] at hi'
        omega
      · have hlt' : r.scanDone < docs.length := by
          rw [hr.count] at hend
          omega
        have heq : r.pos = r.scanDone := by omega
        have hd : docs[r.pos]? = some docs[r.pos] := getElem?_eq_getElem (by omega)
        obtain ⟨high, r1, hscan1, hpush⟩ := hr.pushHigh_eq h hlt'
        have hhigh := hscan1.symm.trans (hr.scanOne_eq h hlt')
        simp only [Except.ok.injEq, Prod.mk.injEq] at hhigh
        obtain ⟨rfl, rfl⟩ := hhigh
        simp only [if_neg hend, hscan1, ok_bind]
        by_cases hlt : highAt (efWidth docs) docs r.scanDone < target >>> efWidth docs
        · -- passed over without entering the window: as if fetched and dropped
          have hmod : (r.scanDone + 1) % 2 ^ 32 = r.scanDone + 1 := by omega
          have hempty : r.highs = [] := by rw [hr.window, heq]; simp
          have hinv : Inv docs ⟨r.data, r.wordsStart, r.lowsStart, r.count, r.l, r.scanDone + 1,
              r.highs, r.scanDone + 1, unaryAt (efWidth docs) docs r.scanDone + 1⟩ :=
            { hr with
              pos_le := Nat.le_refl _
              scan_le := hlt'
              window := by simp [hempty]
              behind := by simp }
          obtain ⟨done, r', hr', hinv', hge, hbelow, hdone⟩ := ih hinv (by simp only; omega)
          refine ⟨done, r', by simp only [if_pos hlt, hmod, hr'], hinv', ?_, ?_, hdone⟩
          · simp only at hge
            omega
          · rw [← heq] at hlt hbelow
            exact below_succ hbelow hd (lt_of_highAt_lt hd hlt)
        · refine ⟨false, r.fetched docs, by simp only [if_neg hlt, hpush, pure_eq_ok],
            hr.fetched hlt', Nat.le_refl _, fun i d hi hi' => ?_, nofun⟩
          simp only [EfReader.fetched] at hi'
          omega

theorem Inv.ensureHead_eq (hlt : r.pos < docs.length) :
    ∃ r', r.ensureHead = .ok r' ∧ Inv docs r' ∧ r'.pos = r.pos ∧ r'.pos < r'.scanDone := by
  have hpos := hr.pos_le
  by_cases heq : r.pos = r.scanDone
  · have hlt' : r.scanDone < docs.length := by omega
    obtain ⟨high, r1, hscan1, hpush⟩ := hr.pushHigh_eq h hlt'
    exact ⟨r.fetched docs, by simp only [ensureHead, if_pos heq, hscan1, ok_bind, hpush, pure_eq_ok],
      hr.fetched hlt', rfl, by simp only [EfReader.fetched]; omega⟩
  · exact ⟨r, by rw [ensureHead, if_neg heq], hr, rfl, by omega⟩

/-- The second loop stops at the first docid that reaches the target. -/
theorem Inv.reachLoop_eq (target : Nat) (hfuel : docs.length - r.pos < fuel) :
    ∃ r', reachLoop target fuel r = .ok (docs[r'.pos]?, r') ∧ Inv docs r' ∧
      Lands docs target r.pos r'.pos := by
  induction fuel generalizing r with
  | zero => omega
  | succ fuel ih =>
    have hscan := hr.scan_le
    have hpos := hr.pos_le
    rw [reachLoop]
    by_cases hend : r.pos = r.scanDone ∧ r.count ≤ r.scanDone
    · obtain ⟨hinv, heq⟩ := hr.exhausted (by omega) hend.2
      have hnone : docs[r.count]? = none := by rw [hr.count, List.getElem?_length]
      refine ⟨{ r with pos := r.count }, by simp only [if_pos hend, pure_eq_ok, hnone], hinv, ?_⟩
      simp only [hr.count, heq]
      exact Lands.refl (Nat.le_refl _) (by simp)
    have hlt : r.pos < docs.length := by
      rw [hr.count] at hend
      omega
    obtain ⟨r1, hr1, hinv1, hpos1, hready⟩ := hr.ensureHead_eq h hlt
    have hd : docs[r.pos]? = some docs[r.pos] := getElem?_eq_getElem hlt
    have hvalue := hinv1.headValue_eq h hready (by rw [hpos1]; exact hd)
    simp only [if_neg hend, hr1, ok_bind, hvalue]
    by_cases hle : target ≤ docs[r.pos]
    · refine ⟨r1, by simp only [if_pos hle, pure_eq_ok, hpos1, hd], hinv1, ?_⟩
      rw [hpos1]
      exact Lands.refl hlt.le (by simpa [hd] using hle)
    obtain ⟨hinv2, hpos2⟩ := hinv1.dropHead h hready
    obtain ⟨r', hr', hinv', hlands⟩ := ih hinv2 (by omega)
    refine ⟨r', by simp only [if_neg hle, hr'], hinv', ?_⟩
    rw [hpos2, hpos1] at hlands
    exact hlands.of_succ hd hle

omit hr in
/-- So the reader answers as a cursor on the docids. -/
theorem docTracks : DocTracks docs (Inv docs) where
  len hr := hr.count
  pos_le hr := hr.pos_le.trans hr.scan_le
  peek hr := by
    obtain ⟨r', hr', hinv, hpos, -⟩ := hr.peek_eq h
    exact ⟨r', hr', hinv, hpos⟩
  next hr := hr.next_eq h
  advance {r} target hr := by
    obtain ⟨r1, hr1, hinv1, hpos1, -⟩ := hr.peek_eq h
    have hle := hr.pos_le.trans hr.scan_le
    simp only [PostingReader.advance, PostingReader.pos, advance, hr1, ok_bind]
    obtain ⟨hd, hge, hstay⟩ | ⟨d, hd, hlt, ⟨hreach, hstay⟩ | hlow⟩ := Lands.here_or_below hle target
    · exact ⟨r1, by simp [hinv1.count, hpos1, hge], hinv1, hpos1 ▸ hstay⟩
    · exact ⟨r1, by simp [Option.filter_some, hreach, hpos1, hd], hinv1, hpos1 ▸ hstay⟩
    obtain ⟨done, r2, hr2, hinv2, hge, hbelow, hdone⟩ := hinv1.discardLoop_eq h target
      (show docs.length - r1.pos < r1.count - r1.pos + 1 by rw [hinv1.count]; omega)
    rw [hpos1] at hge hbelow
    simp only [hd, Option.filter_some, decide_eq_true_eq, if_neg hlow, hinv1.count, hpos1,
      if_neg (Nat.not_le.mpr hlt), hinv1.width]
    rw [hinv1.count, hpos1] at hr2
    simp only [hr2, ok_bind]
    cases done with
    | true =>
      have hend := hdone rfl
      refine ⟨r2, by simp [hend], hinv2, hge, hend.le, hbelow, by simp [hend]⟩
    | false =>
      obtain ⟨r3, hr3, hinv3, hlands⟩ := hinv2.reachLoop_eq h target
        (show docs.length - r2.pos < r2.count - r2.pos + 1 by rw [hinv2.count]; omega)
      refine ⟨r3, by simp only [Bool.false_eq_true, if_false, hr3], hinv3, ?_⟩
      exact Lands.of_le hge hbelow hlands

end Reads

/-! ## A fresh reader -/

theorem lowBytes_eq {l : Nat} (hl : l ≤ 31) (hpos : 0 < l) :
    lowBytes l docs = pack l (docs.map (· % 2 ^ l)) := by
  have hmask : (2 ^ 32 - 1) >>> (32 - l) = 2 ^ l - 1 :=
    (by decide : ∀ l < 32, (2 ^ 32 - 1) >>> (32 - l) = 2 ^ l - 1) l (by omega)
  rw [lowBytes, if_pos hpos, hmask]
  simp

theorem low_lt (l : Nat) : ∀ v ∈ docs.map (· % 2 ^ l), v < 2 ^ l := by
  intro v hv
  obtain ⟨x, -, rfl⟩ := mem_map.mp hv
  exact Nat.mod_lt _ (Nat.two_pow_pos l)

/-- The packed low parts take at most 31 bits each. -/
theorem length_lowBytes_le {l : Nat} (hl : l ≤ 31) :
    (lowBytes l docs).length ≤ (31 * docs.length + 7) / 8 := by
  by_cases hpos : 0 < l
  · rw [lowBytes_eq hl hpos, (leValue_pack (by omega) (low_lt l)).2, length_map]
    have : l * docs.length ≤ 31 * docs.length := Nat.mul_le_mul_right _ hl
    omega
  · simp [lowBytes, hpos]

theorem eliasFanoBytes_eq (docs : List Nat) : eliasFanoBytes docs =
    leBytes 4 (docs.length % 2 ^ 32) ++ ([UInt8.ofNat (efWidth docs)] ++
      (leBytes 4 (docs.getLastD 0) ++ (leBytes 4 (efWords docs % 2 ^ 32) ++
        ((unaryWords (efWidth docs) (efWords docs) docs).flatMap (leBytes 8) ++
          lowBytes (efWidth docs) docs)))) := rfl

theorem length_unaryBytes (h : DocList docs) :
    ((unaryWords (efWidth docs) (efWords docs) docs).flatMap (leBytes 8)).length =
      efWords docs * 8 := by
  rw [Holds.length_flatMap_of_width fun n _ => length_leBytes 8 n, h.unaryWords_spec.1]

/-- The code has a header of 13 bytes, the unary words and the low parts. -/
theorem length_eliasFanoBytes (h : DocList docs) : (eliasFanoBytes docs).length =
    13 + efWords docs * 8 + (lowBytes (efWidth docs) docs).length := by
  simp only [eliasFanoBytes_eq, length_append, length_leBytes, length_singleton,
    length_unaryBytes h]
  omega

/-- A reader opened on the code stands at the first docid. -/
theorem new_eq (h : DocList docs) :
    ∃ r, EfReader.new (eliasFanoBytes docs) = .ok r ∧ Inv docs r ∧ r.pos = 0 := by
  have hn := h.length_lt
  have hpos := h.nonempty
  have hwidth := efWidth_le docs
  obtain ⟨hwords, hwordLt, -⟩ := h.unaryWords_spec
  have hlast := h.getLastD_lt
  have hW : efWords docs < 2 ^ 32 := by
    have : docs.getLastD 0 >>> efWidth docs ≤ docs.getLastD 0 := by
      rw [Nat.shiftRight_eq_div_pow]
      exact Nat.div_le_self _ _
    rw [efWords]
    omega
  have hlen := length_eliasFanoBytes h
  have h0 := Holds.of_eq (eliasFanoBytes_eq docs)
  have hcount := h0.left.readWord_eq headerField
  have hl := h0.right.left.head
  have hlastRead := h0.right.right.left.readWord_eq headerField
  have hwc := h0.right.right.right.left.readWord_eq headerField
  have htab := h0.right.right.right.right.left
  have hlow := h0.right.right.right.right.right
  simp only [length_leBytes, length_singleton, Nat.zero_add, Nat.reduceAdd,
    length_unaryBytes h] at hl hlastRead hwc htab hlow
  have hcount' : docs.length % 2 ^ 32 % 256 ^ 4 = docs.length := by omega
  have hwc' : efWords docs % 2 ^ 32 % 256 ^ 4 = efWords docs := by omega
  have hl' : (UInt8.ofNat (efWidth docs)).toNat = efWidth docs := by
    rw [UInt8.toNat_ofNat']
    omega
  rw [hcount'] at hcount
  rw [hwc'] at hwc
  refine ⟨⟨eliasFanoBytes docs, 13, 13 + efWords docs * 8, docs.length, efWidth docs, 0, [], 0, 0⟩,
    ?_, ?_, rfl⟩
  · simp only [new, readU32, if_neg (show ¬ (eliasFanoBytes docs).length < 13 by omega), hcount, hl,
      expect_some, ok_bind, hlastRead, hwc, hl', pure_eq_ok,
      if_neg (show ¬ (31 < efWidth docs ∨ docs.length = 0 ∨
        (eliasFanoBytes docs).length < 13 + efWords docs * 8) by omega)]
  exact {
    count := rfl
    width := rfl
    words := by
      intro w hw
      rw [← hwords] at hw
      have hentry := htab.entry (fun n _ => length_leBytes 8 n) (getElem?_eq_getElem hw)
      have hlt := hwordLt _ (getElem_mem hw)
      rw [word, hentry.readWord_eq, getD_eq_getElem _ _ hw]
      congr 1
      exact Nat.mod_eq_of_lt hlt
    length := by simp only; omega
    lows := by
      intro i d hd
      rw [readLow]
      by_cases hz : efWidth docs = 0
      · simp [hz, Nat.mod_one]
      rw [if_neg hz, hlow.drop_eq hlen.le]
      rw [lowBytes_eq hwidth (by omega)]
      exact readBits_pack (by omega) (low_lt _) (by simp [hd])
    pos_le := Nat.le_refl _
    scan_le := Nat.zero_le _
    window := rfl
    behind := rfl }

end EfReader

end Gleaph.Postings
