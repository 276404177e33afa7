import Mathlib.Data.List.Infix
import Mathlib.Data.List.TakeWhile
import Mathlib.Tactic.Common

/-!
# Gleaph.Gql.Like

`LIKE` patterns (`crates/graph/src/plan/expr_evaluator.rs`) and the literal
prefix the planner narrows a scan to (`crates/gql-planner/src/anchor.rs`).

A position of a text or a pattern is the list of characters from there on.
-/

namespace Gleaph.Like

open List

/-! ## The matcher -/

/-- What the loop does at a pattern position for the next character. -/
inductive Move where
  | take (pattern : List Char)
  | star (pattern : List Char)
  | mismatch

/-- A pattern character that does not escape the next one. -/
def plainMove (t c : Char) (pattern : List Char) : Move :=
  if c = '_' then .take pattern
  else if c = '%' then .star pattern
  else if c = t then .take pattern
  else .mismatch

/-- One pass of the loop; the last character of a pattern escapes nothing. -/
def move (esc t : Char) : List Char → Move
  | [] => .mismatch
  | [c] => plainMove t c []
  | c :: d :: pattern =>
    if c = esc then if d = t then .take pattern else .mismatch
    else plainMove t c (d :: pattern)

theorem plainMove_length (h : plainMove t c p = .take q ∨ plainMove t c p = .star q) : q = p := by
  unfold plainMove at h
  split_ifs at h <;> simp_all

theorem move_length (h : move esc t p = .take q ∨ move esc t p = .star q) :
    q.length < p.length := by
  unfold move at h
  split at h
  · simp at h
  · simp [plainMove_length h]
  split_ifs at h
  · simp at h
    simp only [h, length_cons]
    omega
  · simp at h
  · simp [plainMove_length h]

/-- The loops of `sql_like_match`.  `star` is the last `%`: the pattern behind
it, and the text from which that pattern was tried last. -/
def scan (esc : Char) (text pattern : List Char) (star : Option (List Char × List Char)) : Bool :=
  match text with
  | [] => (pattern.dropWhile (· == '%')).isEmpty
  | t :: rest =>
    match _h : move esc t pattern with
    | .take pattern' => scan esc rest pattern' star
    | .star pattern' => scan esc (t :: rest) pattern' (some (pattern', t :: rest))
    | .mismatch =>
      -- the last `%` takes one more character
      match star with
      | some (pattern', _ :: later) => scan esc later pattern' (some (pattern', later))
      | _ => false
termination_by (max text.length (star.elim 0 (·.2.length)), pattern.length)
decreasing_by
  · have := move_length (.inl _h)
    rw [Prod.lex_def]
    simp
    omega
  · have := move_length (.inr _h)
    rw [Prod.lex_def]
    simp
    omega
  · rw [Prod.lex_def]
    simp only [length_cons, Option.elim_some]
    omega

def sqlLikeMatch (text pattern : String) (escape : Option Char) : Bool :=
  scan (escape.getD '\\') text.toList pattern.toList none

/-! ## The language of a pattern -/

/-- A character itself, any one character, any run of characters. -/
inductive Piece where
  | char (c : Char)
  | one
  | run

def Piece.ofPlain (c : Char) : Piece :=
  if c = '_' then .one else if c = '%' then .run else .char c

/-- An escape takes the next character literally; at the end it is itself. -/
def pieces (esc : Char) : List Char → List Piece
  | [] => []
  | [c] => [if c = esc then .char c else .ofPlain c]
  | c :: d :: pattern =>
    if c = esc then .char d :: pieces esc pattern else .ofPlain c :: pieces esc (d :: pattern)

/-- The texts a list of pieces stands for. -/
def Denotes : List Piece → List Char → Prop
  | [], text => text = []
  | .char c :: rest, text => ∃ later, text = c :: later ∧ Denotes rest later
  | .one :: rest, text => ∃ c later, text = c :: later ∧ Denotes rest later
  | .run :: rest, text => ∃ later, later <:+ text ∧ Denotes rest later

/-- The piece stands for exactly one character, and this is one. -/
def Piece.Takes (t : Char) : Piece → Prop
  | .char c => c = t
  | .one => True
  | .run => False

theorem Piece.Takes.denotes_iff (h : piece.Takes t) (rest : List Piece) (text : List Char) :
    Denotes (piece :: rest) (t :: text) ↔ Denotes rest text := by
  cases piece with
  | char c =>
    obtain rfl : c = t := h
    simp [Denotes]
  | one => simp [Denotes]
  | run => exact h.elim

/-- What follows a number of single characters matches what follows as many
characters of the text. -/
theorem Denotes.drop (hsingle : .run ∉ single) (h : Denotes (single ++ rest) text) :
    single.length ≤ text.length ∧ Denotes rest (text.drop single.length) := by
  induction single generalizing text with
  | nil => exact ⟨Nat.zero_le _, h⟩
  | cons piece single ih =>
    simp only [mem_cons, not_or] at hsingle
    have htail : ∃ c later, text = c :: later ∧ Denotes (single ++ rest) later := by
      cases piece with
      | char c => exact ⟨c, h⟩
      | one => exact h
      | run => exact absurd rfl hsingle.1
    obtain ⟨c, later, rfl, hlater⟩ := htail
    simpa using ih hsingle.2 hlater

/-! ## The matcher decides the language -/

/-- What a pass of the loop says about the pieces of the pattern. -/
def Move.Sound (esc t : Char) (p : List Char) : Move → Prop
  | .take q => ∃ piece, piece.Takes t ∧ pieces esc p = piece :: pieces esc q
  | .star q => pieces esc p = .run :: pieces esc q
  | .mismatch => ∀ text, ¬Denotes (pieces esc p) (t :: text)

theorem plainMove_sound (t : Char) (h : pieces esc (c :: p) = .ofPlain c :: pieces esc p) :
    (plainMove t c p).Sound esc t (c :: p) := by
  unfold plainMove
  split_ifs with hone hrun hsame
  · exact ⟨.one, trivial, by rw [h, Piece.ofPlain, if_pos hone]⟩
  · rw [Move.Sound, h, Piece.ofPlain, if_neg hone, if_pos hrun]
  · exact ⟨.char c, hsame, by simp [h, Piece.ofPlain, hone, hrun]⟩
  · intro text
    simp [h, Piece.ofPlain, hone, hrun, Denotes, Ne.symm hsame]

/-- `star` remembers the last `%`: since then, as many single characters were
matched as were read. -/
def Behind (esc : Char) (text pattern : List Char) (star : List Char × List Char) : Prop :=
  ∃ single read, .run ∉ single ∧ single.length = read.length ∧
    pieces esc star.1 = single ++ pieces esc pattern ∧ star.2 = read ++ text

theorem Behind.refl (esc : Char) (text p : List Char) : Behind esc text p (p, text) :=
  ⟨[], [], by simp⟩

theorem denotes_run (rest : List Piece) (text : List Char) :
    Denotes (.run :: rest) text ↔ Denotes rest text ∨ Denotes (.run :: rest) text.tail := by
  cases text with
  | nil => simp [Denotes]
  | cons c later =>
    simp only [Denotes, suffix_cons_iff, or_and_right, exists_or, exists_eq_left,
      tail_cons]

/-- The next `%` makes up for the last one: where the pattern behind that one
matches later, so does what follows the next one. -/
theorem Behind.denotes (h : Behind esc text p s) (hp : pieces esc p = .run :: pieces esc q)
    (hlater : Denotes (.run :: pieces esc s.1) s.2.tail) : Denotes (.run :: pieces esc q) text := by
  obtain ⟨single, read, hsingle, hlength, hpieces, hread⟩ := h
  obtain ⟨later, hsuffix, hdenotes⟩ := hlater
  rw [hpieces, hp] at hdenotes
  obtain ⟨last, hlast, hrest⟩ := (hdenotes.drop hsingle).2
  have hdrop : text = s.2.drop single.length := by rw [hread, hlength, drop_left]
  have htail := hsuffix.trans s.2.tail_suffix
  refine ⟨last, hlast.trans (suffix_of_suffix_length_le
    ((drop_suffix ..).trans htail) (hdrop ▸ drop_suffix ..) ?_), hrest⟩
  rw [hdrop, length_drop, length_drop]
  exact Nat.sub_le_sub_right htail.length_le _

/-! ## Escapes that are wildcards

With `%` or `_` as the escape, the matcher takes an escape at the end of a
pattern for the wildcard, and where the text is used up it skips an escaped `%`.
-/

/-- Every escape has a character to escape. -/
def Paired (esc : Char) : List Char → Prop
  | [] => True
  | [c] => c ≠ esc
  | c :: d :: pattern => if c = esc then Paired esc pattern else Paired esc (d :: pattern)

/-- The escape is no wildcard, or it is `%` and the pattern does not end in it,
or it is `_` and has always a character to escape. -/
def Clear (esc : Char) (pattern : List Char) : Prop :=
  (esc = '%' → pattern.getLast? ≠ some '%') ∧ (esc = '_' → Paired '_' pattern)

/-- Behind an escaped character the pattern is as clear as before, unless that
was a `%` at its end. -/
theorem clear_escaped (d : Char) (p : List Char) :
    Clear esc (esc :: d :: p) ↔ Clear esc p ∧ ¬(esc = '%' ∧ d = '%' ∧ p = []) := by
  cases p with
  | nil => by_cases hrun : esc = '%' <;> simp +contextual [Clear, Paired, hrun]
  | cons a p => simp +contextual [Clear, Paired, getLast?_cons_cons]

/-- A character that is not the escape makes no difference. -/
theorem clear_plain (hc : c ≠ esc) (p : List Char) : Clear esc (c :: p) ↔ Clear esc p := by
  cases p with
  | nil =>
    simp only [Clear, Paired]
    grind
  | cons d p =>
    have hpaired : esc = '_' → (Paired '_' (c :: d :: p) ↔ Paired '_' (d :: p)) := by
      rintro rfl
      rw [Paired, if_neg hc]
    simp only [Clear, getLast?_cons_cons]
    exact and_congr_right' (imp_congr_right hpaired)

theorem pieces_plain (hc : c ≠ esc) (p : List Char) :
    pieces esc (c :: p) = .ofPlain c :: pieces esc p := by
  cases p <;> simp [pieces, hc]

/-- A move in a clear pattern leads to a clear one. -/
theorem move_clear (hclear : Clear esc p) (h : move esc t p = .take q ∨ move esc t p = .star q) :
    Clear esc q := by
  unfold move at h
  split at h
  · simp at h
  · simp [plainMove_length h, Clear, Paired]
  split_ifs at h with hc
  · simp at h
    subst hc h
    exact ((clear_escaped _ _).mp hclear).1
  · simp at h
  · rw [plainMove_length h]
    exact (clear_plain hc _).mp hclear

/-- At the end of the text the rest of a clear pattern has to be made of `%`s. -/
theorem denotes_nil_iff (h : Clear esc p) :
    Denotes (pieces esc p) [] ↔ (p.dropWhile (· == '%')).isEmpty := by
  induction p with
  | nil => simp [pieces, Denotes]
  | cons c p ih =>
    by_cases hesc : c = esc
    · have hnot : ¬Denotes (pieces esc (c :: p)) [] := by cases p <;> simp [pieces, hesc, Denotes]
      have hother : ∃ x ∈ c :: p, x ≠ '%' := by
        by_cases hrun : esc = '%'
        · refine ⟨_, getLast_mem (cons_ne_nil c p), fun hlast => h.1 hrun ?_⟩
          rw [getLast?_eq_some_getLast (cons_ne_nil c p), hlast]
        · exact ⟨c, mem_cons_self, hesc ▸ hrun⟩
      simpa [hnot, dropWhile_eq_nil_iff, -mem_cons] using hother
    · rw [pieces_plain hesc]
      by_cases hc : c = '%'
      · simpa [hc, Piece.ofPlain, Denotes] using ih ((clear_plain hesc p).mp h)
      · rw [Piece.ofPlain]
        split_ifs <;> simp [Denotes, hc]

theorem move_sound (t : Char) (h : Clear esc p) : (move esc t p).Sound esc t p := by
  unfold move
  split
  · simp [Move.Sound, pieces, Denotes]
  next c =>
    refine plainMove_sound t ?_
    by_cases hc : c = esc
    · subst hc
      simp only [Clear, getLast?_singleton, Paired] at h
      simp [pieces, Piece.ofPlain, show c ≠ '_' from fun hone => h.2 hone hone,
        show c ≠ '%' from fun hrun => h.1 hrun (congrArg some hrun)]
    · exact pieces_plain hc []
  next c d p =>
    split_ifs with hc hd
    · exact ⟨.char d, hd, by simp [pieces, hc]⟩
    · intro text
      simp [pieces, hc, Denotes, Ne.symm hd]
    · exact plainMove_sound t (pieces_plain hc _)

theorem scan_iff (text p : List Char) (star : Option (List Char × List Char)) (hclear : Clear esc p)
    (hstar : ∀ s ∈ star, Behind esc text p s ∧ Clear esc s.1) :
    scan esc text p star = true ↔ Denotes (pieces esc p) text ∨
      ∃ s ∈ star, Denotes (.run :: pieces esc s.1) s.2.tail := by
  fun_induction scan esc text p star with
  | case1 p star =>
    rw [← denotes_nil_iff hclear, iff_self_or]
    rintro ⟨s, hs, later, hsuffix, hdenotes⟩
    obtain ⟨⟨single, read, hsingle, hlength, hpieces, hread⟩, -⟩ := hstar s hs
    rw [hpieces] at hdenotes
    rw [hread, append_nil] at hsuffix
    cases read with
    | nil =>
      obtain rfl := length_eq_zero_iff.mp hlength
      rwa [suffix_nil.mp hsuffix] at hdenotes
    | cons c read =>
      -- too few characters are left for the pieces that were matched
      have hshort := (hdenotes.drop hsingle).1.trans hsuffix.length_le
      simp only [hlength, length_cons, tail_cons] at hshort
      omega
  | case2 p star t rest q hmove ih =>
    have hsound := move_sound t hclear
    rw [hmove] at hsound
    obtain ⟨piece, htakes, hpiece⟩ := hsound
    rw [ih (move_clear hclear (.inl hmove)) ?_, hpiece, htakes.denotes_iff]
    intro s hs
    obtain ⟨⟨single, read, hsingle, hlength, hpieces, hread⟩, hstars⟩ := hstar s hs
    have hne : piece ≠ .run := by
      rintro rfl
      exact htakes
    exact ⟨⟨single ++ [piece], read ++ [t], by simp [hsingle, hne.symm], by simp [hlength],
      by simp [hpieces, hpiece], by simp [hread]⟩, hstars⟩
  | case3 p star t rest q hmove ih =>
    have hq := move_clear hclear (.inr hmove)
    have hp : pieces esc p = .run :: pieces esc q := by
      simpa [Move.Sound, hmove] using move_sound t hclear
    rw [ih hq (by simpa using ⟨.refl .., hq⟩)]
    simp only [Option.mem_some_iff, exists_eq_left', ← denotes_run]
    rw [hp, iff_self_or]
    rintro ⟨s, hs, hlater⟩
    exact (hstar s hs).1.denotes hp hlater
  | case4 p t rest hmove q c later ih =>
    have hnot : ∀ text, ¬Denotes (pieces esc p) (t :: text) := by
      simpa [Move.Sound, hmove] using move_sound t hclear
    have hq := (hstar _ rfl).2
    rw [ih hq (by simpa using ⟨.refl .., hq⟩)]
    simp [← denotes_run, hnot]
  | case5 p star t rest hmove hstar' =>
    have hnot : ∀ text, ¬Denotes (pieces esc p) (t :: text) := by
      simpa [Move.Sound, hmove] using move_sound t hclear
    simp only [Bool.false_eq_true, hnot, false_or, false_iff]
    rintro ⟨⟨q, tried⟩, hs, -⟩
    obtain ⟨⟨-, read, -, -, -, rfl⟩, -⟩ := hstar _ hs
    cases read with
    | nil => exact hstar' q t rest hs
    | cons c read => exact hstar' q c _ hs

/-! ## A misjudged text -/

theorem scan_take (h : move esc t p = .take q) (rest : List Char)
    (star : Option (List Char × List Char)) :
    scan esc (t :: rest) p star = scan esc rest q star := by
  conv_lhs => unfold scan
  split
  next q' hq => rw [Move.take.inj (h.symm.trans hq)]
  next hq => cases h.symm.trans hq
  next hq => cases h.symm.trans hq

theorem scan_star (h : move esc t p = .star q) (rest : List Char)
    (star : Option (List Char × List Char)) :
    scan esc (t :: rest) p star = scan esc (t :: rest) q (some (q, t :: rest)) := by
  conv_lhs => unfold scan
  split
  next hq => cases h.symm.trans hq
  next q' hq => rw [Move.star.inj (h.symm.trans hq)]
  next hq => cases h.symm.trans hq

/-- What is accepted without a `%` to go back to is accepted with one. -/
theorem scan_mono {star : Option (List Char × List Char)} (h : scan esc text p star = true)
    (hnone : star = none) (later) : scan esc text p later = true := by
  fun_induction scan esc text p star generalizing later with
  | case1 p star => rwa [scan]
  | case2 p star t rest q hmove ih =>
    rw [scan_take hmove]
    exact ih h hnone later
  | case3 p star t rest q hmove ih =>
    rwa [scan_star hmove]
  | case4 p t rest hmove q c later ih => cases hnone
  | case5 p star t rest hmove hstar => cases h

/-- The matcher accepts the text, and nothing the text ends in is in the
language. -/
def Misjudged (esc : Char) (p text : List Char) : Prop :=
  scan esc text p none = true ∧ ∀ later, later <:+ text → ¬Denotes (pieces esc p) later

/-- One more character in front of both. -/
theorem Misjudged.take (h : Misjudged esc q text) (piece : Piece) (htakes : piece.Takes t)
    (hmove : move esc t p = .take q) (hpieces : pieces esc p = piece :: pieces esc q) :
    Misjudged esc p (t :: text) := by
  refine ⟨by rw [scan_take hmove, h.1], fun later hlater hdenotes => ?_⟩
  rw [hpieces] at hdenotes
  have hsingle : .run ∉ [piece] := by
    rintro hrun
    obtain rfl := mem_singleton.mp hrun
    exact htakes
  obtain ⟨hlength, hrest⟩ := Denotes.drop hsingle hdenotes
  refine h.2 _ ?_ hrest
  rcases suffix_cons_iff.mp hlater with rfl | hsuffix
  · exact suffix_rfl
  · exact (drop_suffix ..).trans hsuffix

/-- A pattern that is not clear accepts a text which is not in its language. -/
theorem exists_misjudged (h : ¬Clear esc p) : ∃ text, Misjudged esc p text := by
  induction p using pieces.induct esc with
  | case1 => simp [Clear, Paired] at h
  | case2 c =>
    by_cases hc : c = esc
    · subst hc
      by_cases hrun : c = '%'
      · exact ⟨[], by simp [hrun, scan], by simp [pieces, Denotes]⟩
      · have hone : c = '_' := by simpa [Clear, Paired, hrun] using h
        have hmove : move c 'a' [c] = .take [] := by simp [move, plainMove, hone]
        refine ⟨['a'], by simp [scan_take hmove, scan], ?_⟩
        simp [hone, pieces, Denotes, suffix_cons_iff]
    · exact absurd ((clear_plain hc []).mpr (by simp [Clear, Paired])) h
  | case3 d p ih =>
    by_cases hp : Clear esc p
    · -- an escaped `%` at the end of the pattern is skipped
      obtain ⟨rfl, rfl, rfl⟩ := by simpa [clear_escaped, hp] using h
      exact ⟨[], by simp [scan], by simp [pieces, Denotes]⟩
    · obtain ⟨text, htext⟩ := ih hp
      exact ⟨d :: text, htext.take (.char d) rfl (by simp [move]) (by simp [pieces])⟩
  | case4 c d p hc ih =>
    obtain ⟨text, htext⟩ := ih (mt (clear_plain hc _).mpr h)
    have hmove : ∀ t, move esc t (c :: d :: p) = plainMove t c (d :: p) := by simp [move, hc]
    have hpieces := pieces_plain hc (d :: p)
    by_cases hone : c = '_'
    · refine ⟨'a' :: text, htext.take .one trivial ?_ ?_⟩
      · rw [hmove, plainMove, if_pos hone]
      · rw [hpieces, Piece.ofPlain, if_pos hone]
    by_cases hrun : c = '%'
    · have hstar : ∀ t, move esc t (c :: d :: p) = .star (d :: p) := fun t => by
        rw [hmove, plainMove, if_neg hone, if_pos hrun]
      refine ⟨text, ?_, fun later hlater hdenotes => ?_⟩
      · cases text with
        | nil => simpa [scan, hrun] using htext.1
        | cons t rest =>
          rw [scan_star (hstar t)]
          exact scan_mono htext.1 rfl _
      · rw [hpieces, Piece.ofPlain, if_neg hone, if_pos hrun] at hdenotes
        obtain ⟨last, hlast, hrest⟩ := hdenotes
        exact htext.2 last (hlast.trans hlater) hrest
    · refine ⟨c :: text, htext.take (.char c) rfl ?_ ?_⟩
      · rw [hmove, plainMove, if_neg hone, if_neg hrun, if_pos rfl]
      · rw [hpieces, Piece.ofPlain, if_neg hone, if_neg hrun]

/-- For one pattern, the matcher decides its language exactly if the escape is
no wildcard, or a `%` that the pattern does not end in, or a `_` that has always
a character to escape. -/
theorem sqlLikeMatch_iff (pattern : String) (escape : Option Char) :
    (∀ text : String, sqlLikeMatch text pattern escape = true ↔
      Denotes (pieces (escape.getD '\\') pattern.toList) text.toList) ↔
    Clear (escape.getD '\\') pattern.toList := by
  refine ⟨fun h => ?_, fun hclear text => by simp [sqlLikeMatch, scan_iff _ _ _ hclear]⟩
  by_contra hclear
  obtain ⟨text, haccepts, hnot⟩ := exists_misjudged hclear
  have hjudged := h (String.ofList text)
  simp only [sqlLikeMatch, String.toList_ofList] at hjudged
  exact hnot text suffix_rfl (hjudged.mp haccepts)
/-- With `%` as the escape, one at the end of a pattern still matches any run,
and an escaped one is skipped at the end of the text. -/
theorem sqlLikeMatch_percent_escape :
    (sqlLikeMatch "a" "%" (some '%') = true ∧ ¬Denotes (pieces '%' ['%']) ['a']) ∧
      sqlLikeMatch "" "%%" (some '%') = true ∧ ¬Denotes (pieces '%' ['%', '%']) [] := by
  refine ⟨⟨?_, by simp [pieces, Denotes]⟩, ?_, by simp [pieces, Denotes]⟩ <;>
    simp [sqlLikeMatch, scan, move, plainMove]

/-! ## The literal prefix -/

/-- Byte length of the raw literal run, the first loop of `like_literal_prefix`;
an escape at the end counts one byte. -/
def rawEnd (esc : Char) : List Char → Nat
  | [] => 0
  | [c] => if c = '%' ∨ c = '_' then 0 else if c = esc then 1 else c.utf8Size
  | c :: d :: pattern =>
    if c = '%' ∨ c = '_' then 0
    else if c = esc then c.utf8Size + (d.utf8Size + rawEnd esc pattern)
    else c.utf8Size + rawEnd esc (d :: pattern)

/-- `&pattern[..n]`, a panic (`none`) where `n` is not on a character boundary. -/
def sliceTo : List Char → Nat → Option (List Char)
  | _, 0 => some []
  | [], _ + 1 => none
  | c :: text, n + 1 =>
    if c.utf8Size ≤ n + 1 then (sliceTo text (n + 1 - c.utf8Size)).map (c :: ·) else none

/-- The second loop: an escape at the end is literal. -/
def resolve (esc : Char) : List Char → List Char
  | [] => []
  | [c] => [c]
  | c :: d :: raw => if c = esc then d :: resolve esc raw else c :: resolve esc (d :: raw)

def likeLiteralPrefix (pattern : String) (escape : Option Char) : Option (List Char) := do
  let esc := escape.getD '\\'
  let raw ← sliceTo pattern.toList (rawEnd esc pattern.toList)
  return if raw.contains esc then resolve esc raw else raw

/-- Before the first wildcard, every escape has a character to escape. -/
def RunPaired (esc : Char) : List Char → Prop
  | [] => True
  | [c] => c = '%' ∨ c = '_' ∨ c ≠ esc
  | c :: d :: pattern =>
    if c = '%' ∨ c = '_' then True
    else if c = esc then RunPaired esc pattern
    else RunPaired esc (d :: pattern)

/-- The literal characters a pattern starts with. -/
def literal (esc : Char) : List Char → List Char
  | [] => []
  | [c] => if c = '%' ∨ c = '_' then [] else [c]
  | c :: d :: pattern =>
    if c = '%' ∨ c = '_' then []
    else if c = esc then d :: literal esc pattern
    else c :: literal esc (d :: pattern)

theorem sliceTo_cons (c : Char) (text : List Char) (n : Nat) :
    sliceTo (c :: text) (c.utf8Size + n) = (sliceTo text n).map (c :: ·) := by
  obtain ⟨k, hk⟩ := Nat.exists_eq_succ_of_ne_zero c.utf8Size_pos.ne'
  rw [hk, Nat.succ_add, sliceTo, if_pos (by omega)]
  congr 2
  omega

theorem resolve_of_notMem (h : esc ∉ raw) : resolve esc raw = raw := by
  induction raw using resolve.induct esc with
  | case1 => rfl
  | case2 c => rfl
  | case3 d raw => simp at h
  | case4 c d raw hc ih =>
    rw [resolve, if_neg hc, ih (not_mem_of_not_mem_cons h)]

/-- The slice ends on a character boundary, and its escapes resolve to the
literal prefix. -/
theorem exists_sliceTo_rawEnd (p : List Char) (h : esc.utf8Size = 1 ∨ RunPaired esc p) :
    ∃ raw, sliceTo p (rawEnd esc p) = some raw ∧ resolve esc raw = literal esc p := by
  induction p using literal.induct esc with
  | case1 => exact ⟨[], rfl, rfl⟩
  | case2 c hwild => exact ⟨[], by simp [rawEnd, hwild, sliceTo], by simp [literal, hwild, resolve]⟩
  | case3 c hwild =>
    have hend : rawEnd esc [c] = c.utf8Size + 0 := by
      simp only [rawEnd, if_neg hwild]
      split_ifs with hc
      · rw [hc, h.resolve_right fun hrun => by simp [RunPaired, hc, hc ▸ hwild] at hrun]
      · rfl
    exact ⟨[c], by rw [hend, sliceTo_cons]; simp [sliceTo], by simp [literal, hwild, resolve]⟩
  | case4 c d p hwild =>
    exact ⟨[], by simp [rawEnd, hwild, sliceTo], by simp [literal, hwild, resolve]⟩
  | case5 d p hwild ih =>
    obtain ⟨raw, hslice, hraw⟩ :=
      ih (h.imp_right fun hpaired => by simpa [RunPaired, hwild] using hpaired)
    exact ⟨esc :: d :: raw, by simp [rawEnd, hwild, sliceTo_cons, hslice],
      by simp [literal, hwild, resolve, hraw]⟩
  | case6 c d p hwild hc ih =>
    obtain ⟨raw, hslice, hraw⟩ :=
      ih (h.imp_right fun hpaired => by simpa [RunPaired, hwild, hc] using hpaired)
    refine ⟨c :: raw, by simp [rawEnd, hwild, hc, sliceTo_cons, hslice], ?_⟩
    rw [literal, if_neg hwild, if_neg hc, ← hraw]
    cases raw <;> simp [resolve, hc]

/-- Before the first wildcard the matcher goes character by character. -/
theorem scan_literal (c : Char) (q : List Char) (ha : ¬(a = '%' ∨ a = '_'))
    (hmove : ∀ t, move esc t (a :: p) = if c = t then .take q else .mismatch)
    (h : scan esc text (a :: p) none = true) :
    ∃ rest, text = c :: rest ∧ scan esc rest q none = true := by
  cases text with
  | nil => simp [scan, mt Or.inl ha] at h
  | cons t rest =>
    unfold scan at h
    split at h
    next htake =>
      rw [hmove] at htake
      split_ifs at htake with hc
      cases htake
      exact ⟨rest, by rw [hc], h⟩
    next hstar =>
      rw [hmove] at hstar
      split_ifs at hstar
    · cases h

theorem literal_isPrefix (h : scan esc text p none = true) : literal esc p <+: text := by
  induction p using literal.induct esc generalizing text with
  | case1 => exact nil_prefix
  | case2 c hwild => simp [literal, hwild]
  | case3 c hwild =>
    obtain ⟨rest, rfl, -⟩ := scan_literal c [] hwild (by simp_all [move, plainMove]) h
    simp [literal, hwild]
  | case4 c d p hwild => simp [literal, hwild]
  | case5 d p hwild ih =>
    obtain ⟨rest, rfl, hrest⟩ := scan_literal d p hwild (by simp [move]) h
    simpa [literal, hwild] using ih hrest
  | case6 c d p hwild hc ih =>
    obtain ⟨rest, rfl, hrest⟩ := scan_literal c (d :: p) hwild (by simp_all [move, plainMove]) h
    simpa [literal, hwild, hc] using ih hrest

/-- An escape of several bytes at the end of the literal run is cut in two. -/
theorem sliceTo_rawEnd_eq_none (hwide : esc.utf8Size ≠ 1) (h : ¬RunPaired esc p) :
    sliceTo p (rawEnd esc p) = none := by
  induction p using literal.induct esc with
  | case1 => exact absurd trivial h
  | case2 c hwild => exact absurd (by simpa [RunPaired, ← or_assoc] using .inl hwild) h
  | case3 c hwild =>
    obtain rfl : c = esc := by
      by_contra hc
      exact h (.inr (.inr hc))
    have hpos := c.utf8Size_pos
    rw [rawEnd, if_neg hwild, if_pos rfl, sliceTo, if_neg (by omega)]
  | case4 c d p hwild => exact absurd (by simp [RunPaired, hwild]) h
  | case5 d p hwild ih =>
    simp [rawEnd, hwild, sliceTo_cons, ih (by simpa [RunPaired, hwild] using h)]
  | case6 c d p hwild hc ih =>
    simp [rawEnd, hwild, hc, sliceTo_cons, ih (by simpa [RunPaired, hwild, hc] using h)]

/-- The prefix is found and starts every accepted text exactly if the escape
takes one byte, or has a character to escape wherever it stands before the first
wildcard. -/
theorem likeLiteralPrefix_isPrefix (pattern : String) (escape : Option Char) :
    (∃ lit, likeLiteralPrefix pattern escape = some lit ∧
      ∀ text, sqlLikeMatch text pattern escape = true → lit <+: text.toList) ↔
    (escape.getD '\\').utf8Size = 1 ∨ RunPaired (escape.getD '\\') pattern.toList := by
  constructor
  · rintro ⟨lit, hlit, -⟩
    by_contra hnot
    obtain ⟨hwide, hrun⟩ := not_or.mp hnot
    simp [likeLiteralPrefix, sliceTo_rawEnd_eq_none hwide hrun] at hlit
  intro h
  obtain ⟨raw, hslice, hraw⟩ := exists_sliceTo_rawEnd pattern.toList h
  refine ⟨literal (escape.getD '\\') pattern.toList, ?_, fun text h => literal_isPrefix h⟩
  rw [likeLiteralPrefix, hslice, ← hraw]
  simp only [Option.bind_eq_bind, Option.bind_some, Option.pure_def]
  split
  · rfl
  next hnot => rw [resolve_of_notMem (by simpa using hnot)]

/-- A wide escape at the end of a pattern is cut in two. -/
theorem likeLiteralPrefix_wide_escape : likeLiteralPrefix "é" (some 'é') = none := by
  decide

end Gleaph.Like
