import Gleaph.Postings.TopK.Cursors

/-!
# Gleaph.Postings.TopK.Sound

The driver returns the brute-force ranking.

A run is described by one number `t`: every document below `t` has been
decided, every list stands at its first posting at or beyond `t`, and the heap
holds the `k` best of the documents below `t` (`Inv`).  Evaluating the smallest
frontier `d` moves `t` to `d + 1`; skipping moves it to the earliest next-block
start, and every document passed over scores too little to enter the full
heap.  Either way at least one posting is left behind, which bounds the number
of iterations.
-/

namespace Gleaph.Postings

open Ranking List

/-! ## Decided documents -/

theorem mem_docids : d ∈ docids qs ↔ ∃ q ∈ qs, ∃ p ∈ q.postings, p.1 = d := by
  simp [docids]

/-- The documents below `t`. -/
def docidsBelow (qs : List Query) (t : Nat) : Finset Nat := (docids qs).filter (· < t)

theorem mem_docidsBelow : d ∈ docidsBelow qs t ↔ d ∈ docids qs ∧ d < t :=
  Finset.mem_filter

theorem mem_hitsOf : h ∈ hitsOf qs ds ↔ h.docid ∈ ds ∧ h.score = score qs h.docid := by
  rw [hitsOf, Multiset.mem_map]
  constructor
  · intro ⟨d, hd, hh⟩
    rw [← hh]
    exact ⟨hd, rfl⟩
  · intro ⟨hd, hs⟩
    exact ⟨h.docid, hd, by rw [← hs]⟩

/-- Deciding one more document. -/
theorem hitsOf_docidsBelow_succ (htd : t ≤ d) (hd : d ∈ docids qs)
    (hgap : ∀ d' ∈ docids qs, t ≤ d' → d ≤ d') :
    hitsOf qs (docidsBelow qs (d + 1)) = ⟨score qs d, d⟩ ::ₘ hitsOf qs (docidsBelow qs t) := by
  have hnot : d ∉ docidsBelow qs t := by
    rw [mem_docidsBelow]
    omega
  have hset : docidsBelow qs (d + 1) = Finset.cons d (docidsBelow qs t) hnot := by
    ext d'
    rw [Finset.mem_cons, mem_docidsBelow, mem_docidsBelow]
    constructor
    · intro ⟨hmem, hlt⟩
      by_cases hle : t ≤ d'
      · exact Or.inl (Nat.le_antisymm (Nat.le_of_lt_succ hlt) (hgap d' hmem hle))
      · exact Or.inr ⟨hmem, Nat.not_le.mp hle⟩
    · intro h
      cases h with
      | inl h => exact ⟨h ▸ hd, by omega⟩
      | inr h => exact ⟨h.1, by omega⟩
  rw [hset, hitsOf, Finset.cons_val, Multiset.map_cons]
  rfl

/-- Deciding all documents up to `u` at once. -/
theorem hitsOf_docidsBelow_add (htu : t ≤ u) :
    hitsOf qs (docidsBelow qs u) =
      hitsOf qs (docidsBelow qs t) + hitsOf qs ((docidsBelow qs u).filter (t ≤ ·)) := by
  have hset : docidsBelow qs t = (docidsBelow qs u).filter (¬ t ≤ ·) := by
    ext d
    rw [Finset.mem_filter, mem_docidsBelow, mem_docidsBelow]
    grind
  rw [hset, hitsOf, hitsOf, hitsOf, ← Multiset.map_add, Finset.filter_val, Finset.filter_val,
    add_comm, Multiset.filter_add_not]

/-! ## Admission -/

/-- Admitting a new document keeps the heap the `k` best seen so far. -/
theorem admitHit_eq (hk : 1 ≤ k) (hnew : hit ∉ s) :
    admitHit k (topK k s) hit = .ok (topK k (hit ::ₘ s)) := by
  rw [topK_cons]
  by_cases hroom : (topK k s).length < k
  · rw [admitHit, if_pos hroom, take_of_length_le]
    rw [orderedInsert_length]
    omega
  have hlen : (topK k s).length = k := by
    rw [length_topK] at hroom ⊢
    omega
  rw [admitHit, if_neg hroom]
  cases hlast : (topK k s).getLast? with
  | none =>
    rw [getLast?_eq_none_iff] at hlast
    simp [hlast] at hlen
    omega
  | some worst =>
    have hsplit : (topK k s).dropLast ++ [worst] = topK k s :=
      dropLast_append_getLast? worst hlast
    have hmem : worst ∈ topK k s := mem_of_getLast? hlast
    have hne : hit ≠ worst := fun h => hnew (h ▸ mem_of_mem_topK hmem)
    have hfull := take_orderedInsert_of_full (l := (topK k s).dropLast) (w := worst)
      (by rw [hsplit]; exact pairwise_topK k s) hne
    have hlen' : (topK k s).dropLast.length + 1 = k := by
      rw [length_dropLast, hlen]
      omega
    rw [hsplit, hlen'] at hfull
    simp only [expect_some, ok_bind, pure_eq_ok, Hit.cmp_eq_lt, hfull]
    by_cases hlt : hit < worst
    · simp only [if_pos hlt]
    · simp only [if_neg hlt]

/-! ## The invariant of a run -/

section Run

variable {R : Type} {Rel : R → Cursor → Prop}

/-- Every document below `t` is decided: the cursors stand at `t`, the lists
without a cursor have nothing left, and the heap holds the best so far. -/
structure Inv (Rel : R → Cursor → Prop) (qs : List Query) (k t : Nat) (s : TopkState R) :
    Prop where
  lists : ∃ ended live, (ended ++ live).Perm qs ∧ (∀ q ∈ ended, q.rest t = []) ∧
    List.Forall₂ (At Rel t) s.cursors live
  sorted : FrontierSorted s.cursors
  heap : s.heap = topK k (hitsOf qs (docidsBelow qs t))

variable {ended : List Query}

/-- Sorting the cursors is no concern of the invariant. -/
theorem Inv.of_moved (hperm : (ended ++ live).Perm qs) (hended : ∀ q ∈ ended, q.rest t = [])
    (hat : List.Forall₂ (At Rel t) cs live) :
    Inv Rel qs k t ⟨sortByCachedFrontier cs, topK k (hitsOf qs (docidsBelow qs t))⟩ := by
  obtain ⟨hsort, hsorted⟩ := sortByCachedFrontier_spec cs
  obtain ⟨live', hat', hlive⟩ := perm_comp_forall₂ hsort hat
  exact ⟨⟨ended, live', (hlive.append_left ended).trans hperm, hended, hat'⟩, hsorted, rfl⟩

theorem rest_eq_nil_of_le (htu : t ≤ u) {q : Query} (h : q.rest t = []) : q.rest u = [] := by
  rw [← q.rest_rest htu, h]
  rfl

/-- Only the lists with something left score at or beyond `t`. -/
theorem score_eq_live (hperm : (ended ++ live).Perm qs) (hended : ∀ q ∈ ended, q.rest t = [])
    (htd : t ≤ d) : score qs d = score live d := by
  have hzero : score ended d = 0 := score_eq_zero htd fun q hq => by simp [hended q hq]
  have hsum : score (ended ++ live) d = score ended d + score live d := by simp [score]
  rw [← show score (ended ++ live) d = score qs d from (hperm.map _).sum_eq, hsum, hzero, zero_add]

/-- An undecided document lies ahead of some cursor. -/
theorem mem_live_of_docid (hperm : (ended ++ live).Perm qs) (hended : ∀ q ∈ ended, q.rest t = [])
    (hd : d ∈ docids qs) (htd : t ≤ d) : ∃ q ∈ live, ∃ p ∈ q.rest t, p.1 = d := by
  obtain ⟨q, hq, p, hp, hpd⟩ := mem_docids.mp hd
  have hrest := Query.mem_rest_of_le hp (hpd ▸ htd)
  cases mem_append.mp (hperm.mem_iff.mpr hq) with
  | inl hq => simp [hended q hq] at hrest
  | inr hq => exact ⟨q, hq, p, hrest, hpd⟩

/-! ## The measure -/

/-- Postings not yet left behind. -/
def remaining (qs : List Query) (t : Nat) : Nat := (qs.map fun q => (q.rest t).length).sum

theorem remaining_zero (qs : List Query) :
    remaining qs 0 = (qs.map fun q => q.postings.length).sum := by
  simp [remaining, Query.rest_zero]

theorem Query.length_rest_le (q : Query) (htu : t ≤ u) : (q.rest u).length ≤ (q.rest t).length := by
  rw [← q.rest_rest htu]
  exact (dropWhile_sublist _).length_le

theorem remaining_lt (htu : t ≤ u) (hq : q ∈ qs) (hr : q.rest t = p :: ps) (hp : p.1 < u) :
    remaining qs u < remaining qs t := by
  refine sum_lt_sum _ _ (fun q _ => q.length_rest_le htu) ⟨q, hq, ?_⟩
  rw [← q.rest_rest htu, hr, dropWhile_cons_of_pos (by simpa using hp)]
  exact Nat.lt_succ_of_le (dropWhile_sublist _).length_le

/-! ## One iteration -/

/-- The assumptions on the queries: sound lists, and sums that fit a word
with room for one more. -/
structure Bounded (qs : List Query) : Prop where
  sound : ∀ q ∈ qs, q.Sound
  score_lt : ∀ d, score qs d < 2 ^ 32 - 1

/-- What one iteration works on after compaction. -/
structure Active (Rel : R → Cursor → Prop) (qs : List Query) (t : Nat)
    (cs : List (ListCursor R)) (ended live : List Query) : Prop where
  perm : (ended ++ live).Perm qs
  ended : ∀ q ∈ ended, q.rest t = []
  cursors : List.Forall₂ (At Rel t) cs live
  sorted : FrontierSorted cs
  allLive : AllLive cs

theorem Active.mem (h : Active Rel qs t cs ended live) (hq : q ∈ live) : q ∈ qs :=
  h.perm.mem_iff.mp (mem_append_right ended hq)

/-- Every cursor belongs to a list of the query. -/
theorem Active.exists_query (h : Active Rel qs t cs ended live) (hc : c ∈ cs) :
    ∃ q ∈ live, At Rel t c q :=
  exists_at_of_mem h.cursors hc

/-- The threshold test always answers; when it fails, the heap is full and no
document of the frontier blocks scores more than its worst. -/
theorem Active.mayQualify_spec (hqs : Bounded qs) (hk : 1 ≤ k) (h : Active Rel qs t cs ended live) :
    ∃ b, mayQualify k (topK k (hitsOf qs (docidsBelow qs t))) cs = .ok b ∧
      (b = false → (topK k (hitsOf qs (docidsBelow qs t))).length = k ∧
        ∀ d, t ≤ d → (∀ c ∈ cs, ∀ f, c.frontier = some f → d < blockEnd f) →
          ∀ x ∈ topK k (hitsOf qs (docidsBelow qs t)), score qs d ≤ x.score) := by
  have hheap := pairwise_topK k (hitsOf qs (docidsBelow qs t))
  have hmem : ∀ x ∈ topK k (hitsOf qs (docidsBelow qs t)), x.score < 2 ^ 32 - 1 := by
    intro x hx
    rw [(mem_hitsOf.mp (mem_of_mem_topK hx)).2]
    exact hqs.score_lt _
  generalize topK k (hitsOf qs (docidsBelow qs t)) = heap at hheap hmem ⊢
  by_cases hfull : heap.length = k
  · cases hlast : heap.getLast? with
    | none =>
      rw [getLast?_eq_none_iff] at hlast
      simp [hlast] at hfull
      omega
    | some worst =>
      have hworst := hmem worst (mem_of_getLast? hlast)
      have hrequired : (worst.score + 1) % 2 ^ 32 = worst.score + 1 :=
        Nat.mod_eq_of_lt (by omega)
      obtain ⟨b, hb, hfail⟩ := canQualify_spec h.cursors (fun q hq => hqs.sound q (h.mem hq))
        h.allLive (show worst.score + 1 ≤ 2 ^ 32 - 1 by omega) (Nat.succ_pos _)
      refine ⟨b, ?_, ?_⟩
      · simp only [mayQualify, if_pos hfull, hlast, expect_some, ok_bind, hrequired, hb]
      intro hno
      refine ⟨hfull, ?_⟩
      intro d htd hd x hx
      have hscore := hfail hno d htd hd
      rw [zero_add, ← score_eq_live h.perm h.ended htd] at hscore
      -- the heap is in rank order, so its last hit scores least
      have hle : worst.score ≤ x.score := by
        rw [← dropLast_append_getLast? worst hlast] at hheap hx
        cases mem_append.mp hx with
        | inl hx =>
          have := (Hit.le_iff _ _).mp ((pairwise_append.mp hheap).2.2 x hx worst (by simp))
          omega
        | inr hx => rw [mem_singleton.mp hx]
      omega
  · exact ⟨true, by rw [mayQualify, if_neg hfull], nofun⟩

variable [PostingReader R]

section

variable (hRel : Simulates Rel)

include hRel

/-- The smallest frontier is evaluated in full and competes for the heap. -/
theorem Active.evaluate (hqs : Bounded qs) (hk : 1 ≤ k) {c : ListCursor R}
    (h : Active Rel qs t (c :: cs) ended live) (hd : c.frontier = some d) :
    ∃ cs', takeMatched d 0 (c :: cs) = .ok (score qs d, cs') ∧
      admitHit k (topK k (hitsOf qs (docidsBelow qs t))) ⟨score qs d, d⟩ =
        .ok (topK k (hitsOf qs (docidsBelow qs (d + 1)))) ∧
      Inv Rel qs k (d + 1)
        ⟨sortByCachedFrontier cs', topK k (hitsOf qs (docidsBelow qs (d + 1)))⟩ ∧
      remaining qs (d + 1) < remaining qs t := by
  have hsound : ∀ q ∈ live, q.Sound := fun q hq => hqs.sound q (h.mem hq)
  obtain ⟨q, hq, hat⟩ := h.exists_query (show c ∈ c :: cs by simp)
  obtain ⟨tf, ps, hr⟩ := hat.frontier_eq_some hd
  have hp : (d, tf) ∈ q.rest t := by simp [hr]
  have htd : t ≤ d := (hsound q hq).le_of_mem_rest hp
  have hmin : ∀ c' ∈ c :: cs, d + 1 ≤ frontierKey c'.frontier := by
    intro c' hc'
    have hkey : frontierKey c.frontier = d + 1 := by simp [hd, frontierKey]
    cases hc' with
    | head => exact hkey.ge
    | tail _ hc' => exact hkey.ge.trans (rel_of_pairwise_cons h.sorted hc')
  have hscore := score_eq_live h.perm h.ended htd
  have hlt := hqs.score_lt d
  obtain ⟨cs', htake, hat'⟩ := takeMatched_eq hRel h.cursors hsound h.sorted htd hmin
    (show 0 + score live d < 2 ^ 32 by omega)
  rw [zero_add, ← hscore] at htake
  have hended' : ∀ q ∈ ended, q.rest (d + 1) = [] :=
    fun q hq => rest_eq_nil_of_le (by omega) (h.ended q hq)
  refine ⟨cs', htake, ?_, Inv.of_moved h.perm hended' hat',
    remaining_lt (by omega) (h.mem hq) hr (Nat.lt_succ_self d)⟩
  have hdoc : d ∈ docids qs :=
    mem_docids.mpr ⟨q, h.mem hq, _, Query.mem_of_mem_rest hp, rfl⟩
  rw [hitsOf_docidsBelow_succ htd hdoc, admitHit_eq hk]
  · intro hmem
    have := mem_docidsBelow.mp (mem_hitsOf.mp hmem).1
    simp only at this
    omega
  · intro d' hd' htd'
    obtain ⟨q', hq', p', hp', hpd'⟩ := mem_live_of_docid h.perm h.ended hd' htd'
    have := le_of_mem_rest_of_key h.cursors hsound hmin q' hq' p' hp'
    omega

/-- A skip leaves behind only documents that cannot enter the heap. -/
theorem Active.skip (hqs : Bounded qs) (h : Active Rel qs t cs ended live) (hne : cs ≠ [])
    (hfull : (topK k (hitsOf qs (docidsBelow qs t))).length = k)
    (hfail : ∀ d, t ≤ d → (∀ c ∈ cs, ∀ f, c.frontier = some f → d < blockEnd f) →
      ∀ x ∈ topK k (hitsOf qs (docidsBelow qs t)), score qs d ≤ x.score) :
    ∃ u cs', earliestBlockStart cs = .ok u ∧ skipAll u cs = .ok cs' ∧
      Inv Rel qs k u ⟨sortByCachedFrontier cs', topK k (hitsOf qs (docidsBelow qs t))⟩ ∧
      remaining qs u < remaining qs t := by
  have hrange : ∀ c ∈ cs, ∃ f, c.frontier = some f ∧ f < 2 ^ 32 - 128 := by
    intro c hc
    obtain ⟨f, hf⟩ := h.allLive c hc
    obtain ⟨q, hq, hat⟩ := h.exists_query hc
    obtain ⟨tf, ps, hr⟩ := hat.frontier_eq_some hf
    exact ⟨f, hf, (hqs.sound q (h.mem hq)).docid_lt (f, tf)
      (Query.mem_of_mem_rest (show (f, tf) ∈ q.rest t by simp [hr]))⟩
  obtain ⟨u, hu, hle, c, hc, f, hf, hfu⟩ := earliestBlockStart_spec hne hrange
  obtain ⟨q, hq, hat⟩ := h.exists_query hc
  obtain ⟨tf, ps, hr⟩ := hat.frontier_eq_some hf
  have htu : t ≤ u := by
    have : t ≤ f := (hqs.sound q (h.mem hq)).le_of_mem_rest (show (f, tf) ∈ q.rest t by simp [hr])
    omega
  obtain ⟨cs', hskip, hat'⟩ := skipAll_eq hRel htu h.cursors
  have hsame : topK k (hitsOf qs (docidsBelow qs u)) = topK k (hitsOf qs (docidsBelow qs t)) := by
    rw [hitsOf_docidsBelow_add htu]
    refine topK_add_of_behind hfull ?_
    intro x hx y hy
    obtain ⟨hdoc, hy⟩ := mem_hitsOf.mp hy
    rw [Finset.mem_filter, mem_docidsBelow] at hdoc
    have hx' := mem_docidsBelow.mp (mem_hitsOf.mp (mem_of_mem_topK hx)).1
    have hscore := hfail y.docid hdoc.2
      (fun c hc f hf => Nat.lt_of_lt_of_le hdoc.1.2 (hle c hc f hf)) x hx
    rw [Hit.lt_iff]
    omega
  refine ⟨u, cs', hu, hskip, ?_, remaining_lt htu (h.mem hq) hr hfu⟩
  rw [← hsame]
  exact Inv.of_moved h.perm (fun q hq => rest_eq_nil_of_le htu (h.ended q hq)) hat'

/-- An iteration ends the run with the brute-force ranking, or keeps the
invariant and leaves a posting behind. -/
theorem Inv.step (hqs : Bounded qs) (hk : 1 ≤ k) (h : Inv Rel qs k t s) :
    (topkStep k s = .ok none ∧ s.heap = bruteForce qs k) ∨
      ∃ u s', topkStep k s = .ok (some s') ∧ Inv Rel qs k u s' ∧
        remaining qs u < remaining qs t := by
  obtain ⟨ended, live, hperm, hended, hat⟩ := h.lists
  obtain ⟨ended', live', hsplit, hended', hat', hlive⟩ := compact_spec hat h.sorted
  have hsorted := h.sorted.sublist (dropWhile_sublist fun c => c.frontier.isNone)
  have hactive : Active Rel qs t (s.cursors.dropWhile fun c => c.frontier.isNone)
      (ended ++ ended') live' :=
    ⟨by simpa [hsplit] using hperm, fun q hq => (mem_append.mp hq).elim (hended q) (hended' q),
      hat', hsorted, hlive⟩
  cases hcs : s.cursors.dropWhile fun c => c.frontier.isNone with
  | nil =>
    refine Or.inl ⟨by simp only [topkStep, hcs], ?_⟩
    -- no list has anything left, so every document is decided
    rw [hcs] at hat'
    cases hat'
    have hall : docidsBelow qs t = docids qs := by
      refine Finset.filter_true_of_mem fun d hd => ?_
      by_contra hlt
      obtain ⟨q, hq, -⟩ := mem_live_of_docid hactive.perm hactive.ended hd (Nat.not_lt.mp hlt)
      simp at hq
    rw [h.heap, hall, bruteForce]
  | cons c cs =>
    rw [hcs] at hactive
    obtain ⟨b, hb, hfail⟩ := hactive.mayQualify_spec hqs hk
    refine Or.inr ?_
    cases b with
    | true =>
      obtain ⟨d, hd⟩ := hactive.allLive c (by simp)
      obtain ⟨cs', htake, hadmit, hinv, hlt⟩ := hactive.evaluate hRel hqs hk hd
      refine ⟨_, _, ?_, hinv, hlt⟩
      simp only [topkStep, hcs, h.heap, hb, ok_bind, if_true, hd, expect_some, htake, hadmit,
        pure_eq_ok]
    | false =>
      obtain ⟨hfull, hscore⟩ := hfail rfl
      obtain ⟨u, cs', hu, hskip, hinv, hlt⟩ :=
        hactive.skip hRel hqs (cons_ne_nil c cs) hfull hscore
      refine ⟨_, _, ?_, hinv, hlt⟩
      simp only [topkStep, hcs, h.heap, hb, ok_bind, Bool.false_eq_true, if_false, hu, hskip,
        pure_eq_ok]

/-! ## Whole runs -/

theorem Inv.loop (hqs : Bounded qs) (hk : 1 ≤ k) (h : Inv Rel qs k t s)
    (hfuel : remaining qs t < fuel) : topkLoop k fuel s = .ok (some (bruteForce qs k)) := by
  induction fuel generalizing t s with
  | zero => omega
  | succ fuel ih =>
    cases h.step hRel hqs hk with
    | inl hend => simp only [topkLoop, hend.1, ok_bind, pure_eq_ok, hend.2]
    | inr hstep =>
      obtain ⟨u, s', hs', hinv, hlt⟩ := hstep
      simp only [topkLoop, hs', ok_bind]
      exact ih hinv (by omega)

/-- The first frontiers of the lists. -/
theorem frontiers_eq (hlists : List.Forall₂ (Fresh Rel) lists qs) :
    ∃ cs, lists.mapM QueryList.frontier = .ok cs ∧ List.Forall₂ (At Rel 0) cs qs := by
  induction hlists with
  | nil => exact ⟨[], rfl, List.Forall₂.nil⟩
  | cons hfresh _ ih =>
    obtain ⟨c, hc, hat⟩ := hfresh.frontier hRel
    obtain ⟨cs, hcs, hats⟩ := ih
    exact ⟨c :: cs, by simp [mapM_cons, hc, hcs], List.Forall₂.cons hat hats⟩

end

/-- The final sort finds the heap in rank order already. -/
theorem sortHits_eq (h : hits.Pairwise (· ≤ ·)) : sortHits hits = hits := by
  rw [sortHits]
  refine mergeSort_of_pairwise (h.imp ?_)
  intro a b hab
  rw [Hit.le_iff] at hab
  rw [Ordering.isLE_then_iff_and, Nat.isLE_compare, Nat.isLE_compare]
  rw [Nat.compare_eq_lt]
  omega

/-- With sound bounds and sums that fit, the driver ends on as many iterations
as there are postings and returns the `k` best documents. -/
theorem topk_disjunctive_eq_bruteForce (hRel : Simulates Rel) {lists : List (QueryList R)}
    (hlists : List.Forall₂ (Fresh Rel) lists qs) (hqs : Bounded qs) (hk : 1 ≤ k) {fuel : Nat}
    (hfuel : (qs.map fun q => q.postings.length).sum < fuel) :
    topkDisjunctive fuel lists k = .ok (some (bruteForce qs k)) := by
  obtain ⟨cs, hcs, hat⟩ := frontiers_eq hRel hlists
  have hempty : topK k (hitsOf qs (docidsBelow qs 0)) = [] := by
    simp [docidsBelow, hitsOf, topK]
  have hinv : Inv Rel qs k 0 ⟨sortByCachedFrontier cs, []⟩ := by
    rw [← hempty]
    exact Inv.of_moved (show ([] ++ qs).Perm qs by simp) (by simp) hat
  rw [← remaining_zero] at hfuel
  simp only [topkDisjunctive, hcs, ok_bind, hinv.loop hRel hqs hk hfuel, pure_eq_ok, Option.map_some]
  rw [bruteForce, sortHits_eq (pairwise_topK k _)]

end Run

/-- Two lists that share a document. -/
def sharedQueries : List Query :=
  [⟨[(3, 1), (200, 1)], 5, [7, 7], fun _ => 2⟩, ⟨[(3, 1)], 1, [1], fun _ => 0⟩]

theorem sharedQueries_bounded : Bounded sharedQueries where
  sound q hq := by
    simp only [sharedQueries, mem_cons, not_mem_nil, or_false] at hq
    cases hq with
    | inl hq | inr hq =>
      rw [hq]
      exact ⟨by simp, by simp,
        by simp [logicalBlockSize, Query.contribution, TfPartTable.part]⟩
  score_lt d := by
    by_cases h3 : 3 = d
    · rw [← h3]
      decide
    by_cases h200 : 200 = d
    · rw [← h200]
      decide
    · simp [score, Query.scoreAt, sharedQueries, h3, h200]

theorem topk_disjunctive_eq_bruteForce_shared :
    topkDisjunctive 4 [⟨PlainReader.new [3, 200], 5, [7, 7], fun _ => 2⟩,
      ⟨PlainReader.new [3], 1, [1], fun _ => 0⟩] 1 = .ok (some (bruteForce sharedQueries 1)) := by
  refine topk_disjunctive_eq_bruteForce PlainReader.simulates ?_ sharedQueries_bounded
    (by decide) (by decide)
  exact List.Forall₂.cons ⟨PlainReader.new_at (by decide), rfl, rfl, rfl⟩
    (List.Forall₂.cons ⟨PlainReader.new_at (by decide), rfl, rfl, rfl⟩ List.Forall₂.nil)

end Gleaph.Postings
