import Gleaph.Postings.TopK

/-!
# Gleaph.Postings.TopK.Cursors

What the driver's cursors hold once every document below some `t` has been
decided, and what each of its moves does to them.

A cursor at `t` stands before its list's first posting at or beyond `t`.
Evaluating a candidate `d` brings every cursor to `d + 1`, a skip to its
target; a failed threshold test bounds the score of every document before the
earliest next-block start, since a list adds at most its frontier block's bound
there and nothing before its frontier.
-/

namespace Gleaph.Postings

open List

/-! ## Lists cut at a docid -/

/-- The bounds are sound and the docids in range and increasing. -/
structure Query.Sound (q : Query) : Prop where
  increasing : q.postings.Pairwise fun p p' => p.1 < p'.1
  docid_lt : ∀ p ∈ q.postings, p.1 < 2 ^ 32 - 128
  bound : ∀ p ∈ q.postings, ∃ b, q.blockBounds[p.1 / logicalBlockSize]? = some b ∧
    q.contribution p.2 ≤ b

namespace Query

/-- The postings at or beyond `t`. -/
def rest (q : Query) (t : Nat) : List Posting := q.postings.dropWhile fun p => p.1 < t

/-- Nothing lies below zero. -/
theorem rest_zero (q : Query) : q.rest 0 = q.postings := by
  cases h : q.postings <;> simp [rest, h]

variable {t : Nat}

/-- Passing further on from a later point. -/
theorem rest_rest (q : Query) (h : t ≤ u) : (q.rest t).dropWhile (fun p => p.1 < u) = q.rest u := by
  rw [rest, rest]
  induction q.postings with
  | nil => rfl
  | cons p ps ih =>
    by_cases hp : p.1 < t
    · have hu : p.1 < u := by omega
      simp [hp, hu, ih]
    · simp [hp]

theorem mem_of_mem_rest {q : Query} (h : p ∈ q.rest t) : p ∈ q.postings :=
  (dropWhile_sublist _).subset h

theorem mem_rest_of_le {q : Query} (h : p ∈ q.postings) (hle : t ≤ p.1) : p ∈ q.rest t := by
  rw [← takeWhile_append_dropWhile (p := fun p : Posting => decide (p.1 < t))
    (l := q.postings)] at h
  rcases mem_append.mp h with h | h
  · have := mem_takeWhile_imp h
    simp at this
    omega
  · exact h

/-- A document's contribution is found at or beyond its docid. -/
theorem scoreAt_eq (q : Query) (h : t ≤ d) :
    q.scoreAt d = (((q.rest t).filter fun p => p.1 = d).map fun p => q.contribution p.2).sum := by
  have hfilter : (q.rest t).filter (fun p => p.1 = d) = q.postings.filter (fun p => p.1 = d) := by
    conv_rhs => rw [← takeWhile_append_dropWhile (p := fun p : Posting => decide (p.1 < t))
      (l := q.postings), filter_append]
    have hnil : (q.postings.takeWhile fun p => decide (p.1 < t)).filter (fun p => p.1 = d) = [] := by
      rw [filter_eq_nil_iff]
      intro p hp
      have := mem_takeWhile_imp hp
      simp at this ⊢
      omega
    rw [hnil, nil_append, rest]
  rw [scoreAt, hfilter]

/-- A document that is not among the rest scores nothing. -/
theorem scoreAt_eq_zero {q : Query} (h : t ≤ d) (hd : ∀ p ∈ q.rest t, p.1 ≠ d) :
    q.scoreAt d = 0 := by
  have hnil : (q.rest t).filter (fun p => p.1 = d) = [] := by
    rw [filter_eq_nil_iff]
    intro p hp
    simpa using hd p hp
  rw [q.scoreAt_eq h, hnil]
  rfl

variable {q : Query} (hq : q.Sound)

include hq

theorem Sound.rest_increasing (t : Nat) : (q.rest t).Pairwise fun p p' => p.1 < p'.1 :=
  hq.increasing.sublist (dropWhile_sublist _)

theorem Sound.le_of_mem_rest (h : p ∈ q.rest t) : t ≤ p.1 := by
  have hinc := hq.rest_increasing t
  cases hr : q.rest t with
  | nil => simp [hr] at h
  | cons p' ps =>
    have hhead : ¬ p'.1 < t := by
      have := head?_dropWhile_not (fun p : Posting => decide (p.1 < t)) q.postings
      rw [show q.postings.dropWhile _ = q.rest t from rfl, hr] at this
      simpa using this
    rw [hr] at h hinc
    cases h with
    | head => omega
    | tail _ h =>
      have := rel_of_pairwise_cons hinc h
      omega

/-- Past the first posting. -/
theorem Sound.rest_succ (h : q.rest t = p :: ps) : q.rest (p.1 + 1) = ps := by
  have hle := hq.le_of_mem_rest (show p ∈ q.rest t by simp [h])
  have hinc := hq.rest_increasing t
  rw [← q.rest_rest (Nat.le_succ_of_le hle), h]
  rw [h] at hinc
  cases ps with
  | nil => simp
  | cons p' ps =>
    simpa using rel_of_pairwise_cons hinc mem_cons_self

/-- The first posting of the rest gives its document's score. -/
theorem Sound.scoreAt_head (h : q.rest t = (d, tf) :: ps) : q.scoreAt d = q.contribution tf := by
  have hle : t ≤ d := hq.le_of_mem_rest (show (d, tf) ∈ q.rest t by simp [h])
  have hinc := hq.rest_increasing t
  have hnil : ps.filter (fun p => p.1 = d) = [] := by
    rw [filter_eq_nil_iff]
    intro p hp
    rw [h] at hinc
    have := rel_of_pairwise_cons hinc hp
    simp only [decide_eq_true_eq]
    omega
  rw [q.scoreAt_eq hle, h, filter_cons_of_pos (by simp), hnil]
  simp

/-- In the block of a docid, no posting adds more than the block's bound. -/
theorem Sound.scoreAt_le_bound {d f b : Nat} (h : t ≤ d) (hf : ∀ p ∈ q.rest t, f ≤ p.1)
    (hd : d < (f / logicalBlockSize + 1) * logicalBlockSize)
    (hb : q.blockBounds[f / logicalBlockSize]? = some b) : q.scoreAt d ≤ b := by
  by_cases hmem : ∃ p ∈ q.rest t, p.1 = d
  · obtain ⟨⟨d', tf⟩, hp, rfl⟩ := hmem
    -- the posting lies between its list's frontier and the end of that block
    have hblock : d' / logicalBlockSize = f / logicalBlockSize := by
      have hle : f ≤ d' := hf _ hp
      simp only [logicalBlockSize] at hd ⊢
      have : f ≤ d' := hle
      omega
    obtain ⟨b', hb', hle⟩ := hq.bound _ (mem_of_mem_rest hp)
    simp only [hblock, hb, Option.some.injEq] at hb'
    have hrest : q.rest d' = (d', tf) :: (q.rest (d' + 1)) := by
      have hmem' := mem_rest_of_le (mem_of_mem_rest hp) (Nat.le_refl d')
      cases hr : q.rest d' with
      | nil => simp [hr] at hmem'
      | cons p ps =>
        have hp1 : d' ≤ p.1 := hq.le_of_mem_rest (show p ∈ q.rest d' by simp [hr])
        have hinc := hq.rest_increasing d'
        rw [hr] at hinc hmem'
        cases hmem' with
        | head => rw [hq.rest_succ hr]
        | tail _ hmem' =>
          have := rel_of_pairwise_cons hinc hmem'
          simp at this
          omega
    rw [hq.scoreAt_head hrest, hb']
    exact hle
  · rw [scoreAt_eq_zero h fun p hp hpd => hmem ⟨p, hp, hpd⟩]
    exact Nat.zero_le b

end Query

/-! ## Scores -/

/-- The score of a document is summed over the queries. -/
theorem score_cons (q : Query) (qs : List Query) (d : Nat) :
    score (q :: qs) d = q.scoreAt d + score qs d := by
  simp [score]

/-- A document that no list holds at or beyond `t` gets nothing. -/
theorem score_eq_zero {t d : Nat} (htd : t ≤ d) (h : ∀ q ∈ live, ∀ p ∈ q.rest t, p.1 ≠ d) :
    score live d = 0 := by
  induction live with
  | nil => rfl
  | cons q live ih =>
    rw [score_cons, Query.scoreAt_eq_zero htd (h q (by simp)),
      ih fun q' hq' => h q' (by simp [hq'])]

/-! ## One cursor -/

section Cursors

variable {R : Type} {Rel : R → Cursor → Prop}

/-- The cursor stands in its list before the first posting at or beyond `t`. -/
structure At (Rel : R → Cursor → Prop) (t : Nat) (c : ListCursor R) (q : Query) : Prop where
  reader : ∃ cur, Rel c.list.reader cur ∧ cur.rest = q.rest t
  frontier : c.frontier = (q.rest t).head?.map Prod.fst
  weight : c.list.weight = q.weight
  blockBounds : c.list.blockBounds = q.blockBounds
  tfParts : c.list.tfParts = q.tfParts

/-- A list that has not been read yet. -/
structure Fresh (Rel : R → Cursor → Prop) (l : QueryList R) (q : Query) : Prop where
  reader : Rel l.reader (Cursor.start q.postings)
  weight : l.weight = q.weight
  blockBounds : l.blockBounds = q.blockBounds
  tfParts : l.tfParts = q.tfParts

variable {c : ListCursor R} {q : Query} {t : Nat} {cs : List (ListCursor R)} {live : List Query}

/-- A later `t` changes nothing while no posting lies in between. -/
theorem At.stay {u : Nat} (h : At Rel t c q) (htu : t ≤ u) (hle : ∀ p ∈ q.rest t, u ≤ p.1) :
    At Rel u c q := by
  have hrest : q.rest u = q.rest t := by
    rw [← q.rest_rest htu]
    cases hr : q.rest t with
    | nil => rfl
    | cons p ps =>
      have hp : ¬ p.1 < u := Nat.not_lt.mpr (hle p (by simp [hr]))
      simp [hp]
  obtain ⟨hr, hf, hw, hb, ht⟩ := h
  rw [← hrest] at hr hf
  exact ⟨hr, hf, hw, hb, ht⟩

/-- A cursor's frontier is the first docid of the rest. -/
theorem At.frontier_eq_some (h : At Rel t c q) (hd : c.frontier = some d) :
    ∃ tf ps, q.rest t = (d, tf) :: ps := by
  rw [h.frontier] at hd
  cases hr : q.rest t with
  | nil => simp [hr] at hd
  | cons p ps =>
    refine ⟨p.2, ps, ?_⟩
    simp only [hr, head?_cons, Option.map_some, Option.some.injEq] at hd
    rw [← hd]

/-! ## All cursors -/

/-- Frontiers ascend, exhausted cursors first. -/
abbrev FrontierSorted (cs : List (ListCursor R)) : Prop :=
  cs.Pairwise fun a b => frontierKey a.frontier ≤ frontierKey b.frontier

section

variable (hat : List.Forall₂ (At Rel t) cs live)

include hat

/-- A lower bound on the frontiers bounds every posting to come. -/
theorem le_of_mem_rest_of_key (hsound : ∀ q ∈ live, q.Sound)
    (hkey : ∀ c ∈ cs, k ≤ frontierKey c.frontier) : ∀ q ∈ live, ∀ p ∈ q.rest t, k ≤ p.1 + 1 := by
  induction hat with
  | nil => simp
  | @cons c q cs live hc hat ih =>
    intro q' hq' p hp
    cases hq' with
    | tail _ hq' =>
      exact ih (fun q hq => hsound q (by simp [hq])) (fun c hc => hkey c (by simp [hc])) q' hq' p hp
    | head =>
      have hle := hkey c (by simp)
      have hinc := (hsound q (by simp)).rest_increasing t
      cases hr : q.rest t with
      | nil => simp [hr] at hp
      | cons p' ps =>
        have hf : frontierKey c.frontier = p'.1 + 1 := by simp [hc.frontier, hr, frontierKey]
        rw [hr] at hp hinc
        cases hp with
        | head => omega
        | tail _ hp =>
          have := rel_of_pairwise_cons hinc hp
          omega

/-- Every cursor is at one of the live queries. -/
theorem exists_at_of_mem (hc : c ∈ cs) : ∃ q ∈ live, At Rel t c q := by
  induction hat with
  | nil => simp at hc
  | @cons c' q cs live hat hrest ih =>
    cases hc with
    | head => exact ⟨q, by simp, hat⟩
    | tail _ hc =>
      obtain ⟨q', hq', hat'⟩ := ih hc
      exact ⟨q', by simp [hq'], hat'⟩

/-- Cursors need not move where nothing lies between. -/
theorem stay_all (htu : t ≤ u) (hle : ∀ q ∈ live, ∀ p ∈ q.rest t, u ≤ p.1) :
    List.Forall₂ (At Rel u) cs live := by
  induction hat with
  | nil => exact List.Forall₂.nil
  | cons hc hat ih =>
    exact List.Forall₂.cons (hc.stay htu (hle _ (by simp))) (ih fun q hq => hle q (by simp [hq]))

end

/-! ## The threshold test -/

/-- First docid behind the block of a docid, before wrapping. -/
def blockEnd (docid : Nat) : Nat := (docid / logicalBlockSize + 1) * logicalBlockSize

theorem lt_blockEnd (docid : Nat) : docid < blockEnd docid := by
  simp only [blockEnd, logicalBlockSize]
  omega

theorem nextBlockStart_eq (h : docid < 2 ^ 32 - 128) : nextBlockStart docid = blockEnd docid := by
  simp only [nextBlockStart, blockEnd, logicalBlockSize]
  omega

/-- Every cursor has a posting left. -/
abbrev AllLive (cs : List (ListCursor R)) : Prop := ∀ c ∈ cs, ∃ f, c.frontier = some f

/-- The block's bound is above every score in it. -/
theorem At.boundAt {f : Nat} (hq : q.Sound) (h : At Rel t c q) (hf : c.frontier = some f) :
    ∃ b, c.list.boundAt f = .ok b ∧
      ∀ d, t ≤ d → d < blockEnd f → q.scoreAt d ≤ b := by
  obtain ⟨tf, ps, hr⟩ := h.frontier_eq_some hf
  have hmem : (f, tf) ∈ q.rest t := by simp [hr]
  obtain ⟨b, hb, -⟩ := hq.bound _ (Query.mem_of_mem_rest hmem)
  refine ⟨b, by simp [QueryList.boundAt, h.blockBounds, hb], ?_⟩
  intro d htd hd
  have hfirst : ∀ p ∈ q.rest t, f ≤ p.1 := by
    intro p hp
    have hinc := hq.rest_increasing t
    rw [hr] at hp hinc
    cases hp with
    | head => exact Nat.le_refl f
    | tail _ hp => exact Nat.le_of_lt (rel_of_pairwise_cons hinc hp)
  exact hq.scoreAt_le_bound htd hfirst hd hb

/-- The test always answers; when it fails, no document of the frontier blocks
reaches the required score. -/
theorem canQualify_spec (hat : List.Forall₂ (At Rel t) cs live) (hsound : ∀ q ∈ live, q.Sound)
    (hlive : AllLive cs) (hreq : required ≤ 2 ^ 32 - 1) (htotal : total < required) :
    ∃ b, canQualify required total cs = .ok b ∧
      (b = false → ∀ d, t ≤ d → (∀ c ∈ cs, ∀ f, c.frontier = some f → d < blockEnd f) →
        total + score live d < required) := by
  induction hat generalizing total with
  | nil => exact ⟨false, rfl, fun _ d _ _ => by simpa [score] using htotal⟩
  | @cons c q cs live hc hat ih =>
    obtain ⟨f, hf⟩ := hlive c (by simp)
    obtain ⟨b, hb, hle⟩ := hc.boundAt (hsound q (by simp)) hf
    by_cases hmet : required ≤ min (total + b) (2 ^ 32 - 1)
    · exact ⟨true, by simp only [canQualify, hf, expect_some, ok_bind, hb, if_pos hmet, pure_eq_ok],
        nofun⟩
    have hsum : min (total + b) (2 ^ 32 - 1) = total + b := by omega
    rw [hsum] at hmet
    obtain ⟨ans, hans, hfail⟩ := ih (fun q hq => hsound q (by simp [hq]))
      (fun c hc => hlive c (by simp [hc])) (Nat.not_le.mp hmet)
    refine ⟨ans, ?_, ?_⟩
    · simp only [canQualify, hf, expect_some, ok_bind, hb, hsum, if_neg hmet, hans]
    intro hno d htd hd
    have htail := hfail hno d htd fun c hc => hd c (by simp [hc])
    have hhead := hle d htd (hd c (by simp) f hf)
    rw [score_cons]
    omega

/-- The jump goes to the end of some frontier block, and past no other. -/
theorem earliestBlockStart_spec (hne : cs ≠ [])
    (hlive : ∀ c ∈ cs, ∃ f, c.frontier = some f ∧ f < 2 ^ 32 - 128) :
    ∃ u, earliestBlockStart cs = .ok u ∧ (∀ c ∈ cs, ∀ f, c.frontier = some f → u ≤ blockEnd f) ∧
      ∃ c ∈ cs, ∃ f, c.frontier = some f ∧ f < u := by
  have hstarts : cs.mapM (fun c => nextBlockStart <$> expect "compacted" c.frontier) =
      .ok (cs.map fun c => blockEnd (c.frontier.getD 0)) := by
    refine mapM_eq_ok fun c hc => ?_
    obtain ⟨f, hf, hlt⟩ := hlive c hc
    simp [hf, nextBlockStart_eq hlt]
  cases hmin : (cs.map fun c => blockEnd (c.frontier.getD 0)).min? with
  | none => simp [hne] at hmin
  | some u =>
    obtain ⟨hmem, hle⟩ := min?_eq_some_iff.mp hmin
    refine ⟨u, by simp [earliestBlockStart, hstarts, hmin], ?_, ?_⟩
    · intro c hc f hf
      exact hle _ (mem_map.mpr ⟨c, hc, by simp [hf]⟩)
    obtain ⟨c, hc, hu⟩ := mem_map.mp hmem
    obtain ⟨f, hf, -⟩ := hlive c hc
    refine ⟨c, hc, f, hf, ?_⟩
    rw [← hu, hf, Option.getD_some]
    exact lt_blockEnd f

/-! ## Restoring the order -/

theorem insertByFrontier_perm (c : ListCursor R) (cs : List (ListCursor R)) :
    (insertByFrontier c cs).Perm (c :: cs) := by
  induction cs with
  | nil => exact List.Perm.refl _
  | cons d ds ih =>
    by_cases h : frontierKey c.frontier < frontierKey d.frontier
    · simp [insertByFrontier, h]
    · simp only [insertByFrontier, if_neg h]
      exact (ih.cons d).trans (List.Perm.swap c d ds)

/-- The insertion keeps the cursors sorted by frontier. -/
theorem insertByFrontier_sorted (c : ListCursor R) (h : FrontierSorted cs) :
    FrontierSorted (insertByFrontier c cs) := by
  induction cs with
  | nil => simp [insertByFrontier]
  | cons d ds ih =>
    have hds := pairwise_cons.mp h
    by_cases hlt : frontierKey c.frontier < frontierKey d.frontier
    · simp only [insertByFrontier, if_pos hlt]
      refine pairwise_cons.mpr ⟨?_, h⟩
      intro e he
      cases he with
      | head => exact hlt.le
      | tail _ he => exact hlt.le.trans (hds.1 e he)
    · simp only [insertByFrontier, if_neg hlt]
      refine pairwise_cons.mpr ⟨?_, ih hds.2⟩
      intro e he
      cases (insertByFrontier_perm c ds).subset he with
      | head => exact Nat.not_lt.mp hlt
      | tail _ he => exact hds.1 e he

/-- So the insertion sort sorts, and loses no cursor. -/
theorem sortByCachedFrontier_spec (cs : List (ListCursor R)) :
    (sortByCachedFrontier cs).Perm cs ∧ FrontierSorted (sortByCachedFrontier cs) := by
  have hfold : ∀ sorted : List (ListCursor R), FrontierSorted sorted →
      (cs.foldl (fun sorted c => insertByFrontier c sorted) sorted).Perm (sorted ++ cs) ∧
        FrontierSorted (cs.foldl (fun sorted c => insertByFrontier c sorted) sorted) := by
    induction cs with
    | nil => intro sorted h; simpa using h
    | cons c cs ih =>
      intro sorted h
      obtain ⟨hperm, hsorted⟩ := ih _ (insertByFrontier_sorted c h)
      refine ⟨hperm.trans ?_, hsorted⟩
      exact ((insertByFrontier_perm c sorted).append_right cs).trans perm_middle.symm
  simpa [sortByCachedFrontier] using hfold [] List.Pairwise.nil

/-- Compaction drops exhausted lists and nothing else. -/
theorem compact_spec (hat : List.Forall₂ (At Rel t) cs live) (hsorted : FrontierSorted cs) :
    ∃ ended live', live = ended ++ live' ∧ (∀ q ∈ ended, q.rest t = []) ∧
      List.Forall₂ (At Rel t) (cs.dropWhile fun c => c.frontier.isNone) live' ∧
      AllLive (cs.dropWhile fun c => c.frontier.isNone) := by
  induction hat with
  | nil => exact ⟨[], [], rfl, nofun, List.Forall₂.nil, nofun⟩
  | @cons c q cs live hc hat ih =>
    cases hf : c.frontier with
    | none =>
      obtain ⟨ended, live', hsplit, hended, hat', hlive⟩ := ih hsorted.of_cons
      have hr : q.rest t = [] := by simpa [hc.frontier] using hf
      refine ⟨q :: ended, live', by simp [hsplit], ?_, ?_, ?_⟩
      · simpa [hr] using hended
      · simpa [hf] using hat'
      · simpa [hf] using hlive
    | some f =>
      refine ⟨[], q :: live, rfl, nofun, ?_, ?_⟩
      · simpa [hf] using List.Forall₂.cons hc hat
      intro c' hc'
      simp only [hf, dropWhile_cons, Option.isNone_some] at hc'
      cases hc' with
      | head => exact ⟨f, hf⟩
      | tail _ hc' =>
        have hle := rel_of_pairwise_cons hsorted hc'
        cases hf' : c'.frontier with
        | none => simp [hf, hf', frontierKey] at hle
        | some f' => exact ⟨f', rfl⟩

/-! ## Moves of one cursor -/

variable [PostingReader R]

variable (hRel : Simulates Rel)

include hRel

theorem Fresh.frontier (h : Fresh Rel l q) : ∃ c, l.frontier = .ok c ∧ At Rel 0 c q := by
  obtain ⟨r, hr, hrel⟩ := hRel.peek h.reader
  refine ⟨⟨(Cursor.start q.postings).peek, { l with reader := r }⟩,
    by simp [QueryList.frontier, hr], ?_⟩
  exact ⟨⟨_, hrel, q.rest_zero.symm⟩, by simp [Cursor.peek, Cursor.start, q.rest_zero],
    h.weight, h.blockBounds, h.tfParts⟩

/-- Consuming the frontier posting. -/
theorem At.takeStep (hq : q.Sound) (h : At Rel t c q) (hr : q.rest t = (d, tf) :: ps) :
    ∃ c', c.list.takeStep = .ok (q.contribution tf % 2 ^ 32, c') ∧ At Rel (d + 1) c' q := by
  obtain ⟨cur, hrel, hrest⟩ := h.reader
  obtain ⟨r1, hstep, hrel1⟩ := hRel.nextStep hrel
  obtain ⟨r2, hpeek, hrel2⟩ := hRel.peek hrel1
  have htail : cur.tail.rest = q.rest (d + 1) := by
    rw [hq.rest_succ hr]
    simp [Cursor.tail, hrest, hr]
  refine ⟨⟨cur.tail.peek, { c.list with reader := r2 }⟩, ?_, ?_⟩
  · simp [QueryList.takeStep, hstep, hpeek, hrest, hr, Query.contribution, h.weight, h.tfParts]
  · exact ⟨⟨_, hrel2, htail⟩, by simp [Cursor.peek, htail], h.weight, h.blockBounds, h.tfParts⟩

/-- Advancing a cursor and refreshing its frontier. -/
theorem At.skipTo (h : At Rel t c q) (htu : t ≤ u) :
    ∃ l c', c.list.skipTo u = .ok l ∧ l.frontier = .ok c' ∧ At Rel u c' q := by
  obtain ⟨cur, hrel, hrest⟩ := h.reader
  obtain ⟨r1, hadv, hrel1⟩ := hRel.advance u hrel
  obtain ⟨r2, hpeek, hrel2⟩ := hRel.peek hrel1
  have hskip : (cur.skipTo u).rest = q.rest u := by
    rw [← q.rest_rest htu, ← hrest]
    rfl
  refine ⟨{ c.list with reader := r1 }, ⟨(cur.skipTo u).peek, { c.list with reader := r2 }⟩,
    by simp [QueryList.skipTo, hadv], by simp [QueryList.frontier, hpeek], ?_⟩
  exact ⟨⟨_, hrel2, hskip⟩, by simp [Cursor.peek, hskip], h.weight, h.blockBounds, h.tfParts⟩

/-! ## Moves of all cursors -/

/-- Evaluating a candidate: the run of cursors on it adds up its score, and
every cursor then stands past it. -/
theorem takeMatched_eq (hat : List.Forall₂ (At Rel t) cs live) (hsound : ∀ q ∈ live, q.Sound)
    (hsorted : FrontierSorted cs) (htd : t ≤ d) (hmin : ∀ c ∈ cs, d + 1 ≤ frontierKey c.frontier)
    (hacc : acc + score live d < 2 ^ 32) :
    ∃ cs', takeMatched d acc cs = .ok (acc + score live d, cs') ∧
      List.Forall₂ (At Rel (d + 1)) cs' live := by
  induction hat generalizing acc with
  | nil => exact ⟨[], by simp [takeMatched, score], List.Forall₂.nil⟩
  | @cons c q cs live hc hat ih =>
    rw [takeMatched]
    by_cases hd : c.frontier = some d
    · obtain ⟨tf, ps, hr⟩ := hc.frontier_eq_some hd
      have hq := hsound q (by simp)
      obtain ⟨c', hstep, hc'⟩ := hc.takeStep hRel hq hr
      have hscore := hq.scoreAt_head hr
      rw [score_cons] at hacc ⊢
      have hmod : q.contribution tf % 2 ^ 32 = q.scoreAt d := by
        rw [hscore]
        exact Nat.mod_eq_of_lt (by omega)
      have hacc' : (acc + q.scoreAt d) % 2 ^ 32 = acc + q.scoreAt d :=
        Nat.mod_eq_of_lt (by omega)
      obtain ⟨cs', htake, hat'⟩ := ih (fun q' hq' => hsound q' (by simp [hq'])) hsorted.of_cons
        (fun c hc => hmin c (by simp [hc]))
        (show acc + q.scoreAt d + score live d < 2 ^ 32 by omega)
      refine ⟨c' :: cs', ?_, List.Forall₂.cons hc' hat'⟩
      simp only [if_pos hd, hstep, ok_bind, hmod, hacc', htake, pure_eq_ok, Nat.add_assoc]
    · -- the first cursor off the candidate ends the run: the rest is beyond it
      have hkey : d + 2 ≤ frontierKey c.frontier := by
        have hle := hmin c (by simp)
        cases hf : c.frontier with
        | none => simp [hf, frontierKey] at hle
        | some f =>
          simp only [hf, frontierKey, Option.some.injEq] at hle hd ⊢
          omega
      have hbeyond : ∀ q' ∈ q :: live, ∀ p ∈ q'.rest t, d + 1 ≤ p.1 := by
        intro q' hq' p hp
        have hkeys : ∀ c' ∈ c :: cs, d + 2 ≤ frontierKey c'.frontier := by
          intro c' hc'
          cases hc' with
          | head => exact hkey
          | tail _ hc' => exact hkey.trans (rel_of_pairwise_cons hsorted hc')
        have := le_of_mem_rest_of_key (List.Forall₂.cons hc hat) hsound hkeys q' hq' p hp
        omega
      have hzero : score (q :: live) d = 0 :=
        score_eq_zero htd fun q' hq' p hp => by
          have := hbeyond q' hq' p hp
          omega
      refine ⟨c :: cs, by simp [hd, hzero], ?_⟩
      exact stay_all (List.Forall₂.cons hc hat) (by omega) hbeyond

/-- Skipping moves every cursor to the target. -/
theorem skipAll_eq (htu : t ≤ u) (hat : List.Forall₂ (At Rel t) cs live) :
    ∃ cs', skipAll u cs = .ok cs' ∧ List.Forall₂ (At Rel u) cs' live := by
  induction hat with
  | nil => exact ⟨[], rfl, List.Forall₂.nil⟩
  | cons hc hat ih =>
    obtain ⟨cs', hskip, hat'⟩ := ih
    obtain ⟨l, c', hl, hc', hat''⟩ := hc.skipTo hRel htu
    exact ⟨c' :: cs', by simp [skipAll, hl, hc', hskip], List.Forall₂.cons hat'' hat'⟩

end Cursors

end Gleaph.Postings
