import Mathlib
import Gleaph.ByteReader

/-!
# Gleaph.EdgeIndex

The edge postings of the property index: equality lookup, and the purge of a
dropped index.

A posting carries its label as the adjacency storage packs it, the catalog id
with the directed bit.  A lookup looks under both packings of a catalog label;
the purge compares the stored label with the catalog id itself.

Between two steps of a purge the last key that was examined travels as bytes in
the cursor, so a step first decodes it and checks that it is in the bucket.
-/

namespace Gleaph.EdgeIndex

open List

abbrev U16 := Fin (2 ^ 16)

abbrev U32 := Fin (2 ^ 32)

/-- Zero is reserved. -/
abbrev PhysicalIndexId := {raw : Fin (2 ^ 64) // raw ≠ 0}

namespace PhysicalIndexId

def new (raw : Fin (2 ^ 64)) : Option PhysicalIndexId :=
  if h : raw ≠ 0 then some ⟨raw, h⟩ else none

def checkedNext (index : PhysicalIndexId) : Option PhysicalIndexId :=
  if h : index.val.val + 1 < 2 ^ 64 then new ⟨index.val.val + 1, h⟩ else none

theorem lt_checkedNext (index other : PhysicalIndexId) :
    index.checkedNext.all (other < ·) = true ↔ other ≤ index := by
  rw [checkedNext]
  split_ifs with h
  · have hne : (⟨index.val.val + 1, h⟩ : Fin (2 ^ 64)) ≠ 0 :=
      Fin.ne_of_val_ne (Nat.succ_ne_zero _)
    rw [new, dif_pos hne, Option.all_some, decide_eq_true_eq, ← Subtype.coe_lt_coe, Fin.lt_def,
      ← Subtype.coe_le_coe, Fin.le_def, Nat.lt_succ_iff]
  · simp only [Option.all_none, true_iff, ← Subtype.coe_le_coe, Fin.le_def]
    omega

end PhysicalIndexId

structure EdgePostingKey where
  physicalIndexId : PhysicalIndexId
  propertyId : U32
  value : List UInt8
  labelId : U16
  shardId : U32
  ownerVertexId : U32
  slotIndex : U32
  deriving DecidableEq

variable (index : PhysicalIndexId) (property : U32) (value : List UInt8) (label : U16)

namespace EdgePostingKey

/-- What `EdgePostingKey::cmp` compares, in order. -/
def sortKey (k : EdgePostingKey) :
    PhysicalIndexId ×ₗ U32 ×ₗ List Nat ×ₗ U16 ×ₗ U32 ×ₗ U32 ×ₗ U32 :=
  toLex (k.physicalIndexId, toLex (k.propertyId, toLex (k.value.map UInt8.toNat,
    toLex (k.labelId, toLex (k.shardId, toLex (k.ownerVertexId, k.slotIndex))))))

theorem map_toNat_inj {v w : List UInt8} : v.map UInt8.toNat = w.map UInt8.toNat ↔ v = w :=
  (map_injective_iff.mpr fun _ _ => UInt8.toNat_inj.mp).eq_iff

instance : LinearOrder EdgePostingKey := LinearOrder.lift' sortKey <| by
  rintro ⟨⟩ ⟨⟩ h
  simpa [sortKey, map_toNat_inj] using h

def prefixLowerLabeled : EdgePostingKey := ⟨index, property, value, label, 0, 0, 0⟩

def prefixUpperLabeled : EdgePostingKey :=
  ⟨index, property, value, label, Fin.last _, Fin.last _, Fin.last _⟩

def prefixLower : EdgePostingKey := prefixLowerLabeled index property value 0

def prefixUpper : EdgePostingKey := prefixUpperLabeled index property value (Fin.last _)

section

variable {α β : Type} [LinearOrder α] [LinearOrder β] {a x : α} {b y c : β}

theorem toLex_between :
    toLex (a, b) ≤ toLex (x, y) ∧ toLex (x, y) ≤ toLex (a, c) ↔ x = a ∧ b ≤ y ∧ y ≤ c := by
  simp only [Prod.Lex.toLex_le_toLex]
  constructor
  · rintro ⟨h | ⟨rfl, h⟩, h' | ⟨h', h''⟩⟩ <;> first | exact ⟨rfl, h, h''⟩ | order
  · rintro ⟨rfl, hb, hc⟩
    exact ⟨.inr ⟨rfl, hb⟩, .inr ⟨rfl, hc⟩⟩

theorem toLex_le_iff_of_le (h : b ≤ y) : toLex (a, b) ≤ toLex (x, y) ↔ a ≤ x := by
  rw [Prod.Lex.toLex_le_toLex, le_iff_lt_or_eq (a := a)]
  simp [h]

end

theorem mem_labeled (k : EdgePostingKey) :
    prefixLowerLabeled index property value label ≤ k ∧
      k ≤ prefixUpperLabeled index property value label ↔
    k.physicalIndexId = index ∧ k.propertyId = property ∧ k.value = value ∧ k.labelId = label := by
  change sortKey _ ≤ sortKey _ ∧ sortKey _ ≤ sortKey _ ↔ _
  simp only [sortKey, prefixLowerLabeled, prefixUpperLabeled, toLex_between, map_toNat_inj]
  refine ⟨fun ⟨hi, hp, hv, hl, _⟩ => ⟨hi, hp, hv, hl⟩, fun ⟨hi, hp, hv, hl⟩ => ⟨hi, hp, hv, hl, ?_⟩⟩
  exact ⟨Prod.Lex.toLex_mono ⟨Fin.zero_le _, Prod.Lex.toLex_mono ⟨Fin.zero_le _, Fin.zero_le _⟩⟩,
    Prod.Lex.toLex_mono ⟨Fin.le_last _, Prod.Lex.toLex_mono ⟨Fin.le_last _, Fin.le_last _⟩⟩⟩

theorem prefixLower_le (k : EdgePostingKey) : prefixLower index property [] ≤ k ↔
    index < k.physicalIndexId ∨ index = k.physicalIndexId ∧ property ≤ k.propertyId := by
  change sortKey _ ≤ sortKey _ ↔ _
  simp only [sortKey, prefixLower, prefixLowerLabeled, map_nil]
  rw [Prod.Lex.toLex_le_toLex, toLex_le_iff_of_le]
  refine Prod.Lex.toLex_mono ⟨not_lt.mp (not_lt_nil _), Prod.Lex.toLex_mono ⟨Fin.zero_le _, ?_⟩⟩
  exact Prod.Lex.toLex_mono ⟨Fin.zero_le _, Prod.Lex.toLex_mono ⟨Fin.zero_le _, Fin.zero_le _⟩⟩

/-! ### Bytes -/

def edgePostingKeyMagic : UInt8 := 4

/-- The length of a value that is stored or was decoded fits `u32`. -/
def encode (k : EdgePostingKey) : List UInt8 :=
  [edgePostingKeyMagic] ++ (leBytes 8 k.physicalIndexId.val ++ (leBytes 4 k.propertyId ++
    (leBytes 4 k.value.length ++ (k.value ++ (leBytes 2 k.labelId ++ (leBytes 4 k.shardId ++
      (leBytes 4 k.ownerVertexId ++ leBytes 4 k.slotIndex)))))))

/-- `from_le_bytes` of the next bytes. -/
def word (width n : Nat) [NeZero n] : ByteReader Unit (Fin n) := do
  let bytes ← ByteReader.take () width
  return Fin.ofNat n (leValue bytes)

def fields : ByteReader Unit EdgePostingKey := do
  let magic ← ByteReader.byte ()
  if magic ≠ edgePostingKeyMagic then ByteReader.fail () else
  let raw ← word 8 (2 ^ 64)
  let physicalIndexId ← ByteReader.lift ((PhysicalIndexId.new raw).elim (.error ()) .ok)
  let propertyId ← word 4 (2 ^ 32)
  let length ← word 4 (2 ^ 32)
  let value ← ByteReader.take () length
  let labelId ← word 2 (2 ^ 16)
  let shardId ← word 4 (2 ^ 32)
  let ownerVertexId ← word 4 (2 ^ 32)
  let slotIndex ← word 4 (2 ^ 32)
  return { physicalIndexId, propertyId, value, labelId, shardId, ownerVertexId, slotIndex }

/-- Bytes behind the key are not looked at. -/
def decode (bytes : List UInt8) : Option EdgePostingKey := (fields bytes).toOption.map (·.1)

theorem reads_word [NeZero n] (hwidth : 256 ^ width = n) (x : Fin n) :
    ByteReader.Reads (word width n) (leBytes width x) x := by
  have htake := ByteReader.Reads.take () (leBytes width x)
  rw [length_leBytes] at htake
  have hvalue : Fin.ofNat n (leValue (leBytes width x)) = x := by
    refine Fin.ext ?_
    rw [leValue_leBytes, hwidth, Nat.mod_eq_of_lt x.isLt]
    exact Nat.mod_eq_of_lt x.isLt
  have h := htake.map fun bytes => Fin.ofNat n (leValue bytes)
  rwa [hvalue] at h

/-- A key whose value length fits `u32` is decoded from its bytes. -/
theorem decode_encode (k : EdgePostingKey) (h : k.value.length < 2 ^ 32) :
    decode k.encode = some k := by
  have hindex : ByteReader.Reads
      (ByteReader.lift ((PhysicalIndexId.new k.physicalIndexId.val).elim (.error ()) .ok)) []
      k.physicalIndexId := by
    rw [show PhysicalIndexId.new k.physicalIndexId.val = some k.physicalIndexId from
      dif_pos k.physicalIndexId.property]
    exact .lift _
  have hreads : ByteReader.Reads fields k.encode k := by
    refine .bind (.byte () _) ?_
    rw [if_neg (by simp)]
    refine .bind (reads_word rfl _) (hindex.bind ?_)
    refine .bind (reads_word rfl _) (.bind (reads_word rfl ⟨_, h⟩) (.bind (.take () _) ?_))
    refine .bind (reads_word rfl _) (.bind (reads_word rfl _) (.bind (reads_word rfl _) ?_))
    exact .bind_last (reads_word rfl _) (.pure _)
  rw [decode, hreads.whole]
  rfl

end EdgePostingKey

/-! ## Lookup -/

inductive IndexError where
  | indexValueKeyTooLarge
  | invalidPostingIndexPostingPurgeCursor
  deriving DecidableEq

def maxIndexValueKeyBytes : Nat := 4096

def ensureIndexValueKey : Except IndexError Unit :=
  if value.length ≤ maxIndexValueKeyBytes then .ok () else .error .indexValueKeyTooLarge

/-- `EdgeLabelId::from_raw`: the catalog id of a packed label. -/
def labelIndex : U16 := ⟨label % 2 ^ 15, by omega⟩

/-- The undirected packing and the directed one. -/
def wirePackings (catalogLabel : U16) : List U16 :=
  [labelIndex catalogLabel, ⟨labelIndex catalogLabel + 2 ^ 15, by simp [labelIndex]; omega⟩]

structure EdgePostingHit where
  shardId : U32
  ownerVertexId : U32
  labelId : U16
  slotIndex : U32
  deriving DecidableEq

/-- The first and the last key, and the packing that is kept. -/
def equalPrefixSegments : Option U16 → List (EdgePostingKey × EdgePostingKey × Option U16)
  | some catalog => (wirePackings catalog).map fun wire =>
    (.prefixLowerLabeled index property value wire,
      .prefixUpperLabeled index property value wire, some wire)
  | none => [(.prefixLower index property value, .prefixUpper index property value, none)]

/-- The postings stand in key order. -/
def lookupEdgeEqual (postings : List EdgePostingKey) (labelId : Option U16) :
    Except IndexError (List EdgePostingHit) := do
  ensureIndexValueKey value
  return (equalPrefixSegments index property value labelId).flatMap fun (low, high, exactLabel) =>
    (postings.filter fun k => low ≤ k ∧ k ≤ high ∧ exactLabel.all (k.labelId = ·)).map fun k =>
      ⟨k.shardId, k.ownerVertexId, k.labelId, k.slotIndex⟩

theorem mem_wirePackings {wire : U16} :
    wire ∈ wirePackings label ↔ labelIndex wire = labelIndex label := by
  simp only [wirePackings, labelIndex, mem_cons, not_mem_nil, or_false, Fin.ext_iff]
  omega

/-- The postings of the value whose label is one of the packings, and no others. -/
theorem lookupEdgeEqual_eq_nil_iff : (∀ hits, lookupEdgeEqual index property value postings
    (some label) = .ok hits → hits = []) ↔ value.length ≤ maxIndexValueKeyBytes →
      ∀ k ∈ postings, k.physicalIndexId = index → k.propertyId = property → k.value = value →
        labelIndex k.labelId ≠ labelIndex label := by
  rw [lookupEdgeEqual, ensureIndexValueKey]
  split_ifs with hlength
  · simp only [ok_bind, pure_eq_ok, Except.ok.injEq, forall_eq', hlength, true_imp_iff,
      equalPrefixSegments, flatMap_eq_nil_iff, mem_map, forall_exists_index, and_imp,
      forall_apply_eq_imp_iff₂, map_eq_nil_iff, filter_eq_nil_iff, decide_eq_true_eq,
      mem_wirePackings, Option.all_some]
    constructor
    · rintro h k hk rfl rfl rfl hlabel
      have hin := (k.mem_labeled ..).mpr ⟨rfl, rfl, rfl, rfl⟩
      exact h k.labelId hlabel k hk ⟨hin.1, hin.2, rfl⟩
    · rintro h wire hwire k hk ⟨hlow, hhigh, -⟩
      obtain ⟨hi, hp, hv, rfl⟩ := (k.mem_labeled ..).mp ⟨hlow, hhigh⟩
      exact h k hk hi hp hv hwire
  · simp [hlength]

/-! ## Purge -/

/-- `edge_property_bucket_end_exclusive`; `none` is `Bound::Unbounded`. -/
def edgePropertyBucketEndExclusive : Option EdgePostingKey :=
  if h : property.val + 1 < 2 ^ 32 then some (.prefixLower index ⟨property.val + 1, h⟩ [])
  else index.checkedNext.map (.prefixLower · 0 [])

/-- The range a purge scans. -/
def inBucket (k : EdgePostingKey) : Bool :=
  .prefixLower index property [] ≤ k && (edgePropertyBucketEndExclusive index property).all (k < ·)

theorem inBucket_iff (k : EdgePostingKey) :
    inBucket index property k = true ↔ k.physicalIndexId = index ∧ k.propertyId = property := by
  simp only [inBucket, Bool.and_eq_true, decide_eq_true_eq, edgePropertyBucketEndExclusive,
    EdgePostingKey.prefixLower_le]
  split
  · have hnext : (⟨property.val + 1, by assumption⟩ : U32) ≤ k.propertyId ↔
        property < k.propertyId := Iff.rfl
    simp only [Option.all_some, decide_eq_true_eq, ← not_le, EdgePostingKey.prefixLower_le, hnext]
    grind
  · have hlast : k.propertyId ≤ property := Fin.le_def.mpr (by omega)
    have hnext : index.checkedNext.all (fun next => decide (k < .prefixLower next 0 [])) = true ↔
        k.physicalIndexId ≤ index := by
      rw [← PhysicalIndexId.lt_checkedNext]
      congr! with next
      rw [← not_le, EdgePostingKey.prefixLower_le, and_iff_left (Fin.zero_le _), ← le_iff_lt_or_eq,
        not_le]
    rw [Option.all_map]
    refine (and_congr_right' hnext).trans ?_
    grind

/-- What a step that is not done hands to the next one. -/
inductive IndexPostingPurgeCursor where
  | vertex (physicalIndexId : PhysicalIndexId) (propertyId : U32) (resumeKey : List UInt8)
  | edge (physicalIndexId : PhysicalIndexId) (propertyId : U32) (labelId : U16)
      (resumeKey : List UInt8)

def decodeEdgeResume :
    Option IndexPostingPurgeCursor → Except IndexError (Option EdgePostingKey)
  | none => .ok none
  | some (.vertex ..) => .error .invalidPostingIndexPostingPurgeCursor
  | some (.edge cursorIndex cursorProperty cursorLabel resumeKey) =>
    if cursorIndex ≠ index ∨ cursorProperty ≠ property ∨ cursorLabel ≠ label then
      .error .invalidPostingIndexPostingPurgeCursor
    else match EdgePostingKey.decode resumeKey with
    | none => .error .invalidPostingIndexPostingPurgeCursor
    | some key =>
      if key.encode ≠ resumeKey ∨ key.physicalIndexId ≠ index ∨ key.propertyId ≠ property then
        .error .invalidPostingIndexPostingPurgeCursor
      else .ok (some key)

/-- The keys of `set.range((lower, range_upper))` in `purge_range_step`. -/
def inRange (resumeKey : Option EdgePostingKey) (k : EdgePostingKey) : Bool :=
  (match resumeKey with
  | some key => key < k
  | none => .prefixLower index property [] ≤ k) &&
  (edgePropertyBucketEndExclusive index property).all (k < ·)

/-- What `ensure_index_value_key` has accepted when the posting came in. -/
def Stored (k : EdgePostingKey) : Prop := k.value.length ≤ maxIndexValueKeyBytes

structure PurgeStep where
  postings : List EdgePostingKey
  examined : Nat
  removed : Nat
  next : Option IndexPostingPurgeCursor

/-- `commit_purge_property_postings_step` for edges. -/
def commitPurgeStep (postings : List EdgePostingKey) (resume : Option IndexPostingPurgeCursor)
    (budget : Nat) : Except IndexError PurgeStep := do
  let resumeKey ← decodeEdgeResume index property label resume
  let range := postings.filter (inRange index property resumeKey)
  let page := range.take budget
  let matched := page.filter (·.labelId = label)
  return {
    postings := postings.filter (· ∉ matched)
    examined := page.length
    removed := matched.length
    next := if budget < range.length then
        page.getLast?.map fun key => .edge index property label key.encode
      else none }

/-- Steps until one reports done, at most so many. -/
def purge (budget : Nat) :
    Nat → List EdgePostingKey → Option IndexPostingPurgeCursor →
      Except IndexError (List EdgePostingKey × Bool)
  | 0, postings, _ => .ok (postings, false)
  | steps + 1, postings, resume => do
    let step ← commitPurgeStep index property label postings resume budget
    match step.next with
    | none => return (step.postings, true)
    | some cursor => purge budget steps step.postings (some cursor)

/-- A sorted list is split at the last key of its front. -/
theorem take_of_sorted {κ : Type} [LinearOrder κ] {l : List κ} {x : κ} (h : l.Pairwise (· < ·))
    (hlast : (l.take n).getLast? = some x) :
    (∀ k ∈ l.take n, k ≤ x) ∧ ∀ k ∈ l.drop n, x < k := by
  obtain ⟨front, hfront⟩ := getLast?_eq_some_iff.mp hlast
  rw [← take_append_drop n l, pairwise_append, hfront] at h
  obtain ⟨hfront', -, hback⟩ := h
  refine ⟨fun k hk => ?_, fun k hk => hback x (by simp) k hk⟩
  rw [hfront, mem_append, mem_singleton] at hk
  rcases hk with hk | rfl
  · exact ((pairwise_append.mp hfront').2.2 k hk x (by simp)).le
  · exact le_rfl

section

variable {resume : Option EdgePostingKey} (hresume : ∀ key ∈ resume, inBucket index property key)
include hresume

/-- The cursor of a key of the bucket is accepted. -/
theorem decodeEdgeResume_cursor (hstored : ∀ key ∈ resume, Stored key) :
    decodeEdgeResume index property label
      (resume.map fun key => .edge index property label key.encode) = .ok resume := by
  cases resume with
  | none => rfl
  | some key =>
    simp [decodeEdgeResume, key.decode_encode ((hstored key rfl).trans_lt (by decide)),
      (inBucket_iff index property key).mp (hresume key rfl)]

theorem inRange_iff (k : EdgePostingKey) : inRange index property resume k =
    (inBucket index property k && resume.all (· < k)) := by
  cases resume with
  | none => simp [inRange, inBucket]
  | some key =>
    have hkey := hresume key rfl
    simp only [inBucket, Bool.and_eq_true, decide_eq_true_eq] at hkey
    by_cases hlt : key < k
    · simp [inRange, inBucket, hlt, hkey.1.trans hlt.le]
    · simp [inRange, hlt]

/-- Behind the last key of a page stands the rest of the range. -/
theorem inRange_last {postings : List EdgePostingKey} (hsorted : postings.Pairwise (· < ·))
    (hlast : ((postings.filter (inRange index property resume)).take n).getLast? = some last) :
    inBucket index property last ∧ ∀ k ∈ postings, inRange index property (some last) k ↔
      k ∈ (postings.filter (inRange index property resume)).drop n := by
  obtain ⟨hle, hgt⟩ := take_of_sorted (hsorted.filter _) hlast
  have hrange := mem_filter.mp (mem_of_mem_take (mem_of_getLast? hlast))
  rw [inRange_iff _ _ hresume, Bool.and_eq_true] at hrange
  obtain ⟨-, hbucket, hbehind⟩ := hrange
  refine ⟨hbucket, fun k hk => ?_⟩
  rw [inRange_iff _ _ (by simp [hbucket])]
  simp only [Option.all_some, Bool.and_eq_true, decide_eq_true_eq]
  constructor
  · rintro ⟨hk', hlt⟩
    have hmem : k ∈ postings.filter (inRange index property resume) := by
      rw [mem_filter, inRange_iff _ _ hresume, hk']
      refine ⟨hk, ?_⟩
      cases resume with
      | none => rfl
      | some key => simpa using lt_trans (by simpa using hbehind) hlt
    rw [← take_append_drop n (List.filter ..), mem_append] at hmem
    exact hmem.resolve_left fun hk => (hle k hk).not_gt hlt
  · intro hdrop
    have hmem := (mem_filter.mp (mem_of_mem_drop hdrop)).2
    rw [inRange_iff _ _ hresume, Bool.and_eq_true] at hmem
    exact ⟨hmem.1, hgt k hdrop⟩

/-- A run removes the postings of the label from what is left of the bucket. -/
theorem purge_eq {postings : List EdgePostingKey} (hsorted : postings.Pairwise (· < ·))
    (hstored : ∀ k ∈ postings, Stored k) (hkey : ∀ key ∈ resume, Stored key)
    (hbudget : 0 < budget) (hsteps : 0 < steps)
    (hleft : (postings.filter (inRange index property resume)).length ≤ steps) :
    purge index property label budget steps postings
        (resume.map fun key => .edge index property label key.encode) =
      .ok (postings.filter fun k => ¬(inRange index property resume k ∧ k.labelId = label), true) := by
  induction steps generalizing postings resume with
  | zero => simp at hsteps
  | succ steps ih =>
    rw [purge, commitPurgeStep, decodeEdgeResume_cursor _ _ _ hresume hkey]
    simp only [ok_bind, pure_eq_ok]
    have hrange k := @mem_filter _ (inRange index property resume) postings k
    generalize hr : postings.filter (inRange index property resume) = range at *
    by_cases hmore : budget < range.length
    · have hpage : range.take budget ≠ [] := by
        rw [← length_pos_iff, length_take]
        omega
      have hlast := getLast?_eq_some_getLast hpage
      generalize (range.take budget).getLast hpage = last at hlast
      simp only [hmore, if_true, hlast, Option.map_some]
      obtain ⟨hbucket, hbehind⟩ := inRange_last index property hresume hsorted (hr ▸ hlast)
      rw [hr] at hbehind
      have hmem := (hrange last).mp (mem_of_mem_take (mem_of_getLast? hlast))
      refine (@ih (some last) (by simp [hbucket]) _ (hsorted.filter _)
        (fun k hk => hstored k (mem_of_mem_filter hk)) (by simp [hstored last hmem.1])
        (by omega) ?_).trans ?_
      · have hsub : postings.filter (inRange index property (some last)) ⊆ range.drop budget :=
          fun k hk => (hbehind k (mem_of_mem_filter hk)).mp (mem_filter.mp hk).2
        have hlen := (subperm_of_subset (hsorted.filter _).nodup hsub).length_le
        rw [length_drop] at hlen
        refine (filter_sublist.filter _).length_le.trans (hlen.trans ?_)
        omega
      congr 2
      rw [filter_filter]
      refine filter_congr fun k hk => ?_
      have hsplit := hrange k
      rw [← take_append_drop budget range, mem_append, ← hbehind k hk] at hsplit
      simp only [mem_filter, decide_eq_true_eq, ← Bool.decide_and, decide_eq_decide]
      tauto
    · simp only [hmore, if_false, take_of_length_le (not_lt.mp hmore)]
      congr 2
      refine filter_congr fun k hk => ?_
      simp [hrange, hk]

end

/-- A purge of a catalog label ends within one step a posting and keeps the postings
of every other index, property and label.  No lookup finds a posting of the label any
more exactly if none of them was directed. -/
theorem purge_leaves_nothing (hlabel : label.val < 2 ^ 15)
    (hsorted : postings.Pairwise (· < ·)) (hstored : ∀ k ∈ postings, Stored k)
    (hbudget : 0 < budget) :
    let bucket := postings.filter fun k => k.physicalIndexId = index ∧ k.propertyId = property
    ∃ kept, purge index property label budget (max 1 bucket.length) postings none =
        .ok (kept, true) ∧
      kept ⊆ postings ∧
      (∀ k ∈ postings, ¬(k.physicalIndexId = index ∧ k.propertyId = property ∧
        labelIndex k.labelId = label) → k ∈ kept) ∧
      ((∀ value hits, lookupEdgeEqual index property value kept (some label) = .ok hits →
          hits = []) ↔
        ∀ k ∈ bucket, labelIndex k.labelId = label → k.labelId.val < 2 ^ 15) := by
  have hrange (k : EdgePostingKey) : inRange index property none k ↔
      k.physicalIndexId = index ∧ k.propertyId = property := by
    rw [inRange_iff index property (by simp), Option.all_none, Bool.and_true, inBucket_iff]
  have hindex (l : U16) (hl : l.val < 2 ^ 15) : labelIndex l = l :=
    Fin.ext (Nat.mod_eq_of_lt hl)
  intro bucket
  refine ⟨_, @purge_eq index property label none (by simp) _ _ _ hsorted hstored (by simp) hbudget
    (by omega) ?_, filter_subset_self _, fun k hk hother => ?_, ?_⟩
  · rw [filter_congr fun k _ => Bool.eq_iff_iff.mpr ((hrange k).trans decide_eq_true_iff.symm)]
    exact le_max_right ..
  · rw [mem_filter, decide_eq_true_eq, hrange]
    refine ⟨hk, fun ⟨⟨hi, hp⟩, hl⟩ => hother ⟨hi, hp, ?_⟩⟩
    rw [hl, hindex _ hlabel]
  · simp only [lookupEdgeEqual_eq_nil_iff, mem_filter, decide_eq_true_eq, hrange, bucket,
      hindex _ hlabel]
    constructor
    · rintro h k ⟨hk, hi, hp⟩ hl
      by_contra hdirected
      refine h k.value (hstored k hk) k ⟨hk, fun ⟨_, hsame⟩ => ?_⟩ hi hp rfl hl
      exact hdirected (hsame ▸ hlabel)
    · rintro h _ _ k ⟨hk, hkept⟩ hi hp rfl hl
      have hpacked := hindex _ (h k ⟨hk, hi, hp⟩ hl)
      exact hkept ⟨⟨hi, hp⟩, hpacked.symm.trans hl⟩

/-- Two steps purge the undirected postings of a label from a bucket that has a
directed one of another. -/
theorem purge_leaves_nothing_two :
    let index : PhysicalIndexId := ⟨1, by decide⟩
    let postings : List EdgePostingKey :=
      [⟨index, 2, [5], 3, 0, 0, 0⟩, ⟨index, 2, [7], 4 + 2 ^ 15, 0, 0, 0⟩]
    ∃ kept, purge index 2 3 1 2 postings none = .ok (kept, true) ∧
      ∀ value hits, lookupEdgeEqual index 2 value kept (some 3) = .ok hits → hits = [] := by
  intro index postings
  have hsorted : postings.Pairwise (· < ·) := by decide
  have hstored : ∀ k ∈ postings, Stored k := by
    unfold Stored
    decide
  obtain ⟨kept, hrun, -, -, hnone⟩ :=
    purge_leaves_nothing index 2 3 (by decide) hsorted hstored Nat.one_pos
  exact ⟨kept, hrun, hnone.mpr (by decide)⟩

/-- A directed posting stays, and lookups still find it. -/
theorem purge_keeps_directed :
    let index : PhysicalIndexId := ⟨1, by decide⟩
    let postings : List EdgePostingKey := [⟨index, 2, [5], 3 + 2 ^ 15, 0, 0, 0⟩]
    purge index 2 3 1 1 postings none = .ok (postings, true) ∧
      lookupEdgeEqual index 2 [5] postings (some 3) = .ok [⟨0, 0, 3 + 2 ^ 15, 0⟩] := by
  decide

end Gleaph.EdgeIndex
