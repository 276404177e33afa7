import Gleaph.Join.Hash

/-!
# Gleaph.Join.Wire

The router's hash join of two graphs' result rows: `hash_join_wire_results`
(`crates/router/src/use_graph_wire.rs`).

Right rows go into buckets by the hash of their key values; each left row
probes the bucket of its own hash and takes the first row whose key values all
compare equal.  The hasher is any function of the hashed bytes, the conversion
of wire values any fallible function.

`nestedLoopJoin` is what the join is for: every pair of rows with equal keys.
The hash join answers as it does when no left row has two partners and equal
keys are carried alike.
-/

namespace Gleaph.Join

open List hiding keys

/-- `RouterError::InvalidArgument`, or a panic of the comparison. -/
inductive JoinError where
  | invalidArgument (message : String)
  | panicked (message : String)
  deriving DecidableEq, Repr

/-- `GqlWireRow`: columns in order, by name. -/
structure WireRow (W : Type) where
  columns : List (String × W)
  deriving DecidableEq, Repr

/-- What the join calls: the conversion of wire values, the hasher's digest of
the bytes written to it, and the crates behind values. -/
structure WireEnv (W E : Type) where
  tryIntoValue : W → Except String (Value E)
  digest : List UInt8 → Nat
  crates : Crates
  decimals : DecimalBytes

variable {W E : Type}

/-! ## Keys -/

/-- `row_column_map(row).get(name)`: of two columns with one name, the later. -/
def WireRow.column (row : WireRow W) (name : String) : Option W :=
  (row.columns.reverse.find? fun c => c.1 == name).map Prod.snd

def wireValueToGql (env : WireEnv W E) (value : W) : Except JoinError (Value E) :=
  match env.tryIntoValue value with
  | .ok v => .ok v
  | .error e => .error (.invalidArgument e)

def joinKeyValue (env : WireEnv W E) (row : WireRow W) (key : String) :
    Except JoinError (Value E) :=
  match row.column key with
  | none => .error (.invalidArgument
      ("join key column `" ++ key ++ "` missing from wire row"))
  | some wire => wireValueToGql env wire

def joinKeyValues (env : WireEnv W E) (row : WireRow W) (joinKeys : List String) :
    Except JoinError (List (Value E)) :=
  joinKeys.mapM (joinKeyValue env row)

def hashJoinKey [ExtensionJoinKey E] (env : WireEnv W E) (values : List (Value E)) : Nat :=
  env.digest (values.flatMap (joinBytes env.crates env.decimals))

variable [ExtensionValue E]

/-- Some pair of key values does not compare `Equal`; pairs behind the first
such pair are not compared. -/
def keysDiffer (env : WireEnv W E) : List (Value E) → List (Value E) → Except JoinError Bool
  | lv :: left, rv :: right =>
    match compareValues env.crates lv rv with
    | .ok (some .eq) => keysDiffer env left right
    | .ok _ => .ok true
    | .error e => .error (.panicked e)
  | _, _ => .ok false

/-! ## Merging -/

/-- The loop of `merge_wire_rows_skip_keys` over the right row's columns. -/
def mergeColumns (skipKeys : List String) :
    List (String × W) → List (String × W) → Except JoinError (List (String × W))
  | columns, [] => .ok columns
  | columns, (key, value) :: right =>
    if skipKeys.any (· == key) then mergeColumns skipKeys columns right
    else if columns.any (·.1 == key) then
      .error (.invalidArgument ("multi-graph row merge column conflict: " ++ key))
    else mergeColumns skipKeys (columns ++ [(key, value)]) right

def mergeWireRowsSkipKeys (left right : WireRow W) (skipKeys : List String) :
    Except JoinError (WireRow W) := do
  let columns ← mergeColumns skipKeys left.columns right.columns
  return ⟨columns⟩

/-! ## The hash join -/

variable [ExtensionJoinKey E]

/-- The first loop: right rows by the hash of their key values. -/
def fillBuckets (env : WireEnv W E) (joinKeys : List String) (rows : List (WireRow W)) :
    Except JoinError (Nat → List (WireRow W)) :=
  rows.foldlM (fun buckets row => do
    let keyValues ← joinKeyValues env row joinKeys
    let hash := hashJoinKey env keyValues
    return Function.update buckets hash (buckets hash ++ [row])) fun _ => []

/-- The candidates of one left row, up to the first with equal keys. -/
def probe (env : WireEnv W E) (joinKeys : List String) (leftRow : WireRow W)
    (leftKey : List (Value E)) : List (WireRow W) → Except JoinError (Option (WireRow W))
  | [] => .ok none
  | rightRow :: candidates => do
    let rightKey ← joinKeyValues env rightRow joinKeys
    let differ ← keysDiffer env leftKey rightKey
    if differ then probe env joinKeys leftRow leftKey candidates
    else
      let merged ← mergeWireRowsSkipKeys leftRow rightRow joinKeys
      return some merged

/-- The second loop. -/
def probeRows (env : WireEnv W E) (joinKeys : List String) (buckets : Nat → List (WireRow W)) :
    List (WireRow W) → Except JoinError (List (WireRow W))
  | [] => .ok []
  | leftRow :: left => do
    let leftKey ← joinKeyValues env leftRow joinKeys
    let found ← probe env joinKeys leftRow leftKey (buckets (hashJoinKey env leftKey))
    let rest ← probeRows env joinKeys buckets left
    return found.toList ++ rest

def hashJoinWireResults (env : WireEnv W E) (left right : List (WireRow W))
    (joinKeys : List String) : Except JoinError (List (WireRow W)) :=
  if joinKeys.isEmpty then .error (.invalidArgument "HashJoin(empty join_keys) on router")
  else do
    let buckets ← fillBuckets env joinKeys right
    probeRows env joinKeys buckets left

/-! ## The nested-loop join -/

/-- `compare_values(lv, rv) == Some(Ordering::Equal)` -/
def comparesEqual (env : WireEnv W E) (lv rv : Value E) : Bool :=
  match compareValues env.crates lv rv with
  | .ok (some .eq) => true
  | _ => false

/-- Both rows have the key values, and each pair compares `Equal`. -/
def rowsMatch (env : WireEnv W E) (joinKeys : List String) (left right : WireRow W) : Bool :=
  joinKeys.all fun key =>
    match joinKeyValue env left key, joinKeyValue env right key with
    | .ok lv, .ok rv => comparesEqual env lv rv
    | _, _ => false

/-- The left row's columns, then the right row's others. -/
def mergedRow (joinKeys : List String) (left right : WireRow W) : WireRow W :=
  ⟨left.columns ++ right.columns.filter fun c => !joinKeys.any (· == c.1)⟩

/-- One merged row for every pair with equal keys. -/
def nestedLoopJoin (env : WireEnv W E) (left right : List (WireRow W)) (joinKeys : List String) :
    List (WireRow W) :=
  left.flatMap fun l => (right.filter (rowsMatch env joinKeys l)).map (mergedRow joinKeys l)

/-! ## When the joins are defined -/

/-- Rows as the join expects them: key columns in every row and readable, key
values whose comparison does not panic, no other column shared, and no column
twice in a right row. -/
structure Joinable (env : WireEnv W E) (left right : List (WireRow W)) (joinKeys : List String) :
    Prop where
  nonempty : joinKeys ≠ []
  present : ∀ row ∈ left ++ right, ∀ key ∈ joinKeys, ∃ v, joinKeyValue env row key = .ok v
  comparable : ∀ l ∈ left, ∀ r ∈ right, ∀ key ∈ joinKeys, ∀ lv rv,
    joinKeyValue env l key = .ok lv → joinKeyValue env r key = .ok rv →
      ∃ o, compareValues env.crates lv rv = .ok o
  unshared : ∀ l ∈ left, ∀ r ∈ right, ∀ c ∈ l.columns, ∀ d ∈ r.columns, c.1 = d.1 →
    c.1 ∈ joinKeys
  distinct : ∀ r ∈ right, (r.columns.map Prod.fst).Nodup

/-- Key values that compare `Equal` are carried in the same form. -/
def KeysAlike (env : WireEnv W E) (left right : List (WireRow W)) (joinKeys : List String) :
    Prop :=
  ∀ l ∈ left, ∀ r ∈ right, ∀ key ∈ joinKeys, ∀ lv rv, joinKeyValue env l key = .ok lv →
    joinKeyValue env r key = .ok rv → compareValues env.crates lv rv = .ok (some .eq) →
      Alike env.crates lv rv

/-- No left row has two partners. -/
def OnePartner (env : WireEnv W E) (left right : List (WireRow W)) (joinKeys : List String) :
    Prop :=
  ∀ l ∈ left, (right.filter (rowsMatch env joinKeys l)).length ≤ 1

instance (env : WireEnv W E) (left right : List (WireRow W)) (joinKeys : List String) :
    Decidable (OnePartner env left right joinKeys) :=
  inferInstanceAs (Decidable (∀ _ ∈ left, _))

/-! ## The steps of the hash join -/

section Steps

variable {env : WireEnv W E} {joinKeys : List String} {left right : List (WireRow W)}

/-- A row's value under a key. -/
def keyOf (env : WireEnv W E) (row : WireRow W) (key : String) : Value E :=
  match joinKeyValue env row key with
  | .ok v => v
  | .error _ => .null

omit [ExtensionValue E] [ExtensionJoinKey E] in
theorem joinKeyValue_eq (h : ∃ v, joinKeyValue env row key = .ok v) :
    joinKeyValue env row key = .ok (keyOf env row key) := by
  obtain ⟨v, hv⟩ := h
  rw [keyOf, hv]

omit [ExtensionValue E] [ExtensionJoinKey E] in
theorem joinKeyValues_eq (h : ∀ key ∈ joinKeys, ∃ v, joinKeyValue env row key = .ok v) :
    joinKeyValues env row joinKeys = .ok (joinKeys.map (keyOf env row)) :=
  mapM_eq_ok fun key hkey => joinKeyValue_eq (h key hkey)

omit [ExtensionJoinKey E] in
theorem rowsMatch_eq (hl : ∀ key ∈ joinKeys, ∃ v, joinKeyValue env l key = .ok v)
    (hr : ∀ key ∈ joinKeys, ∃ v, joinKeyValue env r key = .ok v) :
    rowsMatch env joinKeys l r =
      joinKeys.all fun key => comparesEqual env (keyOf env l key) (keyOf env r key) := by
  rw [rowsMatch, Bool.eq_iff_iff, all_eq_true, all_eq_true]
  refine forall₂_congr fun key hkey => ?_
  rw [joinKeyValue_eq (hl key hkey), joinKeyValue_eq (hr key hkey)]

omit [ExtensionJoinKey E] in
/-- The comparison loop, where no comparison panics. -/
theorem keysDiffer_map {keys : List String}
    (h : ∀ key ∈ keys, ∃ o, compareValues env.crates (f key) (g key) = .ok o) :
    keysDiffer env (keys.map f) (keys.map g) =
      .ok !(keys.all fun key => comparesEqual env (f key) (g key)) := by
  induction keys with
  | nil => rfl
  | cons key keys ih =>
    obtain ⟨o, ho⟩ := h key (by simp)
    have ih := ih fun key hkey => h key (by simp [hkey])
    rw [map_cons, map_cons, keysDiffer, ho, all_cons, comparesEqual, ho]
    cases o with
    | none => simp
    | some ordering => cases ordering <;> simp [ih]

/-- Columns that are new to a row are appended to it. -/
theorem mergeColumns_eq {columns others : List (String × W)}
    (hnew : ∀ c ∈ columns, ∀ d ∈ others, c.1 = d.1 → c.1 ∈ keys)
    (hdistinct : (others.map Prod.fst).Nodup) :
    mergeColumns keys columns others =
      .ok (columns ++ others.filter fun c => !keys.any (· == c.1)) := by
  induction others generalizing columns with
  | nil => simp [mergeColumns]
  | cons d others ih =>
    obtain ⟨name, value⟩ := d
    rw [map_cons, nodup_cons] at hdistinct
    have hrest : mergeColumns keys columns others =
        .ok (columns ++ others.filter fun c => !keys.any (· == c.1)) :=
      ih (fun c hc d hd => hnew c hc d (mem_cons_of_mem _ hd)) hdistinct.2
    by_cases hkey : keys.any (· == name)
    · rw [mergeColumns, if_pos hkey, hrest, filter_cons_of_neg (by simp [hkey])]
    have hfresh : ¬ columns.any (·.1 == name) := by
      intro hany
      obtain ⟨c, hc, hname⟩ := any_eq_true.mp hany
      have hmem := hnew c hc (name, value) (by simp) (by simpa using hname)
      rw [show c.1 = name by simpa using hname] at hmem
      exact hkey (any_eq_true.mpr ⟨name, hmem, by simp⟩)
    rw [mergeColumns, if_neg hkey, if_neg hfresh, filter_cons_of_pos (by simp [hkey]),
      ih _ hdistinct.2, append_assoc, singleton_append]
    intro c hc d hd heq
    rcases mem_append.mp hc with hc | hc
    · exact hnew c hc d (mem_cons_of_mem _ hd) heq
    · rw [mem_singleton.mp hc] at heq
      exact absurd (mem_map.mpr ⟨d, hd, heq.symm⟩) hdistinct.1

/-- The bucket of a row. -/
def rowHash (env : WireEnv W E) (joinKeys : List String) (row : WireRow W) : Nat :=
  hashJoinKey env (joinKeys.map (keyOf env row))

omit [ExtensionValue E] in
/-- A bucket holds the rows of its hash, in their order. -/
theorem fillBuckets_eq (h : ∀ row ∈ rows, ∀ key ∈ joinKeys, ∃ v, joinKeyValue env row key = .ok v) :
    fillBuckets env joinKeys rows =
      .ok fun hash => rows.filter fun row => rowHash env joinKeys row == hash := by
  suffices hloop : ∀ buckets : Nat → List (WireRow W),
      rows.foldlM (fun buckets row => do
        let keyValues ← joinKeyValues env row joinKeys
        let hash := hashJoinKey env keyValues
        return Function.update buckets hash (buckets hash ++ [row])) buckets =
      .ok fun hash => buckets hash ++ rows.filter fun row => rowHash env joinKeys row == hash by
    exact (hloop _).trans (by simp)
  intro buckets
  induction rows generalizing buckets with
  | nil => simp
  | cons row rows ih =>
    rw [foldlM_cons, joinKeyValues_eq (h row (by simp)), ok_bind, pure_eq_ok, ok_bind,
      ih fun row hrow => h row (by simp [hrow])]
    refine congrArg Except.ok (funext fun hash => ?_)
    by_cases heq : rowHash env joinKeys row = hash
    · subst heq
      simp [rowHash]
    · have hne : hash ≠ hashJoinKey env (joinKeys.map (keyOf env row)) := Ne.symm heq
      rw [filter_cons_of_neg (by simpa using heq), Function.update_of_ne hne]

omit [ExtensionJoinKey E] in
/-- A left row takes the first of its candidates with equal keys. -/
theorem probe_eq (hjoin : Joinable env left right joinKeys) (hl : l ∈ left)
    {candidates : List (WireRow W)} (hsub : ∀ r ∈ candidates, r ∈ right) :
    probe env joinKeys l (joinKeys.map (keyOf env l)) candidates =
      .ok ((candidates.filter (rowsMatch env joinKeys l)).head?.map (mergedRow joinKeys l)) := by
  have hleft := hjoin.present l (by simp [hl])
  induction candidates with
  | nil => rfl
  | cons r candidates ih =>
    have hr : r ∈ right := hsub r (by simp)
    have hright := hjoin.present r (by simp [hr])
    have hcompare : ∀ key ∈ joinKeys,
        ∃ o, compareValues env.crates (keyOf env l key) (keyOf env r key) = .ok o :=
      fun key hkey => hjoin.comparable l hl r hr key hkey _ _
        (joinKeyValue_eq (hleft key hkey)) (joinKeyValue_eq (hright key hkey))
    rw [probe, joinKeyValues_eq hright, ok_bind, keysDiffer_map hcompare, ok_bind,
      ← rowsMatch_eq hleft hright]
    cases hmatch : rowsMatch env joinKeys l r with
    | false =>
      rw [filter_cons_of_neg (by simp [hmatch])]
      exact ih fun r hr => hsub r (by simp [hr])
    | true =>
      rw [filter_cons_of_pos hmatch, mergeWireRowsSkipKeys,
        mergeColumns_eq (hjoin.unshared l hl r hr) (hjoin.distinct r hr)]
      rfl

/-- Rows with equal keys that are carried alike share a bucket. -/
theorem rowHash_eq_of_rowsMatch (hjoin : Joinable env left right joinKeys)
    (halike : KeysAlike env left right joinKeys) (hl : l ∈ left) (hr : r ∈ right)
    (hmatch : rowsMatch env joinKeys l r = true) :
    rowHash env joinKeys l = rowHash env joinKeys r := by
  have hleft := hjoin.present l (by simp [hl])
  have hright := hjoin.present r (by simp [hr])
  rw [rowsMatch_eq hleft hright, all_eq_true] at hmatch
  rw [rowHash, rowHash, hashJoinKey, hashJoinKey, flatMap_map, flatMap_map]
  refine congrArg env.digest (flatMap_congr fun key hkey => ?_)
  have hequal : compareValues env.crates (keyOf env l key) (keyOf env r key) = .ok (some .eq) := by
    have h := hmatch key hkey
    unfold comparesEqual at h
    split at h
    next heq => exact heq
    next => cases h
  exact joinBytes_eq_of_alike (halike l hl r hr key hkey _ _ (joinKeyValue_eq (hleft key hkey))
    (joinKeyValue_eq (hright key hkey)) hequal)

end Steps

/-! ## The two joins agree -/

section Agree

variable (env : WireEnv W E) {left right : List (WireRow W)} {joinKeys : List String}

/-- A left row and a right row with equal keys fall into one bucket. -/
def BucketShared (left right : List (WireRow W)) (joinKeys : List String) : Prop :=
  ∀ l ∈ left, ∀ r ∈ right, rowsMatch env joinKeys l r = true →
    rowHash env joinKeys l = rowHash env joinKeys r

/-- The right rows with equal keys that are in a left row's bucket. -/
def partners (right : List (WireRow W)) (joinKeys : List String) (l : WireRow W) :
    List (WireRow W) :=
  (right.filter fun row => rowHash env joinKeys row == rowHash env joinKeys l).filter
    (rowsMatch env joinKeys l)

/-- What the hash join makes of a left row. -/
def firstJoined (right : List (WireRow W)) (joinKeys : List String) (l : WireRow W) :
    List (WireRow W) :=
  ((partners env right joinKeys l).head?.map (mergedRow joinKeys l)).toList

/-- The hash join joins each left row with the first of its partners. -/
theorem hashJoinWireResults_eq (hjoin : Joinable env left right joinKeys) :
    hashJoinWireResults env left right joinKeys =
      .ok (left.flatMap (firstJoined env right joinKeys)) := by
  have hright : ∀ row ∈ right, ∀ key ∈ joinKeys, ∃ v, joinKeyValue env row key = .ok v :=
    fun row hrow => hjoin.present row (by simp [hrow])
  rw [hashJoinWireResults, if_neg (by simpa using hjoin.nonempty), fillBuckets_eq hright, ok_bind]
  suffices hrows : ∀ rows : List (WireRow W), (∀ l ∈ rows, l ∈ left) →
      probeRows env joinKeys (fun hash => right.filter fun row => rowHash env joinKeys row == hash)
        rows = .ok (rows.flatMap (firstJoined env right joinKeys)) from hrows left fun _ hl => hl
  intro rows hrows
  induction rows with
  | nil => rfl
  | cons l rows ih =>
    have hl : l ∈ left := hrows l (by simp)
    rw [probeRows, joinKeyValues_eq (hjoin.present l (by simp [hl])), ok_bind,
      probe_eq hjoin hl fun r hr => mem_of_mem_filter hr, ok_bind,
      ih fun l hl => hrows l (by simp [hl])]
    rfl

theorem firstJoined_sublist (right : List (WireRow W)) (joinKeys : List String) (l : WireRow W) :
    (firstJoined env right joinKeys l).Sublist
      ((right.filter (rowsMatch env joinKeys l)).map (mergedRow joinKeys l)) := by
  have hfirst : (firstJoined env right joinKeys l).Sublist
      ((partners env right joinKeys l).map (mergedRow joinKeys l)) := by
    rw [firstJoined]
    cases partners env right joinKeys l <;> simp
  exact hfirst.trans ((filter_sublist.filter _).map _)

/-- A left row is joined with all its partners exactly if there is at most one
and it is in the row's bucket. -/
theorem firstJoined_eq_iff (l : WireRow W) :
    firstJoined env right joinKeys l =
        (right.filter (rowsMatch env joinKeys l)).map (mergedRow joinKeys l) ↔
      (right.filter (rowsMatch env joinKeys l)).length ≤ 1 ∧ ∀ r ∈ right,
        rowsMatch env joinKeys l r = true → rowHash env joinKeys l = rowHash env joinKeys r := by
  have hsub : (partners env right joinKeys l).Sublist (right.filter (rowsMatch env joinKeys l)) :=
    filter_sublist.filter _
  constructor
  · intro heq
    have hlength := congrArg length heq
    have hle := hsub.length_le
    have hfirst : (firstJoined env right joinKeys l).length =
        min 1 (partners env right joinKeys l).length := by
      rw [firstJoined]
      cases partners env right joinKeys l <;> simp
    rw [length_map] at hlength
    refine ⟨by omega, fun r hr hmatch => ?_⟩
    have hr : r ∈ partners env right joinKeys l := by
      rw [hsub.eq_of_length (by omega)]
      exact mem_filter.mpr ⟨hr, hmatch⟩
    exact (beq_iff_eq.mp (mem_filter.mp (mem_filter.mp hr).1).2).symm
  · rintro ⟨hone, hshared⟩
    have hall : partners env right joinKeys l = right.filter (rowsMatch env joinKeys l) := by
      rw [partners, filter_filter]
      refine filter_congr fun r hr => ?_
      cases hmatch : rowsMatch env joinKeys l r with
      | false => rfl
      | true => simp [hshared r hr hmatch]
    rw [firstJoined, hall]
    revert hone
    cases right.filter (rowsMatch env joinKeys l) with
    | nil => simp
    | cons r rest => simp +contextual

omit [ExtensionValue E] [ExtensionJoinKey E] in
/-- Runs of parts that are sublists agree only part by part. -/
theorem flatMap_eq_iff_of_sublist {α β : Type} {f g : α → List β} {xs : List α}
    (h : ∀ x, (f x).Sublist (g x)) : xs.flatMap f = xs.flatMap g ↔ ∀ x ∈ xs, f x = g x := by
  refine ⟨fun heq => ?_, fun heq => flatMap_congr heq⟩
  induction xs with
  | nil => simp
  | cons x xs ih =>
    have hlength := congrArg length heq
    have hrest := (Sublist.flatMap_right xs fun x _ => h x).length_le
    simp only [flatMap_cons, length_append] at hlength heq
    have hle := (h x).length_le
    have hx : f x = g x := (h x).eq_of_length (by omega)
    rw [hx, append_cancel_left_eq] at heq
    exact forall_mem_cons.mpr ⟨hx, ih heq⟩

/-- The hash join returns the rows of the nested-loop join exactly if no left
row has two partners and rows with equal keys share a bucket; they do where
equal keys are carried alike. -/
theorem hashJoinWireResults_eq_nestedLoopJoin (hjoin : Joinable env left right joinKeys) :
    (hashJoinWireResults env left right joinKeys =
        .ok (nestedLoopJoin env left right joinKeys) ↔
      OnePartner env left right joinKeys ∧ BucketShared env left right joinKeys) ∧
    (KeysAlike env left right joinKeys → BucketShared env left right joinKeys) := by
  refine ⟨?_, fun halike l hl r hr => rowHash_eq_of_rowsMatch hjoin halike hl hr⟩
  rw [hashJoinWireResults_eq env hjoin, Except.ok.injEq, nestedLoopJoin,
    flatMap_eq_iff_of_sublist (firstJoined_sublist env right joinKeys), OnePartner, BucketShared,
    ← forall₂_and]
  exact forall₂_congr fun l _ => firstJoined_eq_iff env l

/-- Whatever the hashes, the hash join returns rows of the nested-loop join
only, in its order. -/
theorem hashJoinWireResults_sublist (hjoin : Joinable env left right joinKeys) :
    ∃ rows, hashJoinWireResults env left right joinKeys = .ok rows ∧
      rows.Sublist (nestedLoopJoin env left right joinKeys) :=
  ⟨_, hashJoinWireResults_eq env hjoin,
    .flatMap_right left fun l _ => firstJoined_sublist env right joinKeys l⟩

end Agree

/-! ## Rows with two partners, keys of two widths -/

/-- Values as they are, hashed to the number their bytes write. -/
def plainWire : WireEnv (Value Empty) Empty where
  tryIntoValue := .ok
  digest := leValue
  crates := .documented
  decimals := .plain

/-- A row with a key of a width and, where given, one more column. -/
def keyRow (width : IntWidth) (key : Int) (others : List (String × Int)) :
    WireRow (Value Empty) :=
  ⟨("k", .int width (.ofInt _ key)) :: others.map fun c => (c.1, .int .w32 (.ofInt _ c.2))⟩

theorem hashJoinWireResults_eq_nestedLoopJoin_single :
    hashJoinWireResults plainWire [keyRow .w32 1 [("a", 7)]] [keyRow .w32 1 [("b", 8)]] ["k"] =
        .ok (nestedLoopJoin plainWire [keyRow .w32 1 [("a", 7)]] [keyRow .w32 1 [("b", 8)]] ["k"]) ∧
      (nestedLoopJoin plainWire [keyRow .w32 1 [("a", 7)]] [keyRow .w32 1 [("b", 8)]]
        ["k"]).length = 1 := by
  have hleft : joinKeyValue plainWire (keyRow .w32 1 [("a", 7)]) "k" = .ok (.int .w32 1) := rfl
  have hright : joinKeyValue plainWire (keyRow .w32 1 [("b", 8)]) "k" = .ok (.int .w32 1) := rfl
  have hjoin : Joinable plainWire [keyRow .w32 1 [("a", 7)]] [keyRow .w32 1 [("b", 8)]] ["k"] := by
    refine ⟨by decide, ?_, ?_, by decide +kernel, by decide +kernel⟩
    · simp [hleft, hright]
    · simp only [mem_singleton, forall_eq, hleft, hright]
      rintro _ _ ⟨⟩ ⟨⟩
      exact ⟨_, compareValues_of_isNumeric rfl rfl⟩
  obtain ⟨hiff, halike⟩ := hashJoinWireResults_eq_nestedLoopJoin plainWire hjoin
  refine ⟨hiff.mpr ⟨by decide +kernel, halike ?_⟩, by decide +kernel⟩
  simp only [KeysAlike, mem_singleton, forall_eq, hleft, hright]
  rintro _ _ ⟨⟩ ⟨⟩ _
  exact .refl _

theorem hashJoinWireResults_keeps_first :
    ((hashJoinWireResults plainWire [keyRow .w32 1 []]
        [keyRow .w32 1 [("b", 1)], keyRow .w32 1 [("b", 2)]] ["k"]).map List.length = .ok 1 ∧
      (nestedLoopJoin plainWire [keyRow .w32 1 []]
        [keyRow .w32 1 [("b", 1)], keyRow .w32 1 [("b", 2)]] ["k"]).length = 2) ∧
    (hashJoinWireResults plainWire [keyRow .w32 1 []] [keyRow .w64 1 []] ["k"]).map List.length =
        .ok 0 ∧
      (nestedLoopJoin plainWire [keyRow .w32 1 []] [keyRow .w64 1 []] ["k"]).length = 1 := by
  decide +kernel

theorem hashJoinWireResults_sublist_widths :
    ∃ rows, hashJoinWireResults plainWire [keyRow .w32 1 []] [keyRow .w64 1 []] ["k"] = .ok rows ∧
      rows.Sublist (nestedLoopJoin plainWire [keyRow .w32 1 []] [keyRow .w64 1 []] ["k"]) := by
  have hleft : joinKeyValue plainWire (keyRow .w32 1 []) "k" = .ok (.int .w32 1) := rfl
  have hright : joinKeyValue plainWire (keyRow .w64 1 []) "k" = .ok (.int .w64 1) := rfl
  refine hashJoinWireResults_sublist plainWire
    ⟨by decide, ?_, ?_, by decide +kernel, by decide +kernel⟩
  · simp [hleft, hright]
  · simp only [mem_singleton, forall_eq, hleft, hright]
    rintro _ _ ⟨⟩ ⟨⟩
    exact ⟨_, compareValues_of_isNumeric rfl rfl⟩

end Gleaph.Join
