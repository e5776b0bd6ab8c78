import LogQuery.Proofs.Conformance
import LogQuery.Proofs.Tree.Within

/-! Nodes of a filled tree, each filled from the tokens that it begins at. -/
namespace LogQuery.Tree

variable {t : Tree} {cs ds gs : List Tree} {ts ls ms before after : List Token} {k : Kind}

/-- Leaves that stand for the first of some tokens. -/
def Fronts (ls ts : List Token) : Prop := List.Forall₂ Token.ReadAs (ts.take ls.length) ls

theorem fronts_length (h : Fronts ls ts) : ls.length ≤ ts.length := by
  have hl := h.length_eq
  rw [List.length_take] at hl
  omega

theorem fronts_append (h : Fronts (ls ++ ms) ts) :
    Fronts ls ts ∧ Fronts ms (ts.drop ls.length) := by
  have hl := fronts_length h
  rw [List.length_append] at hl
  have htake : (ts.take ls.length).length = ls.length := List.length_take_of_le (by omega)
  rw [Fronts, List.length_append, List.take_add] at h
  constructor
  · have hf := List.forall₂_take_append _ ls ms h
    rwa [List.take_left' htake] at hf
  · have hf := List.forall₂_drop_append _ ls ms h
    rwa [List.drop_left' htake] at hf

theorem fronts_within {u : Tree} (hf : Fronts (leavesAll cs) ts) (h : Within cs before u after) :
    Fronts u.leaves (ts.drop before.length) := by
  rw [within_leaves h, List.append_assoc] at hf
  exact (fronts_append (fronts_append hf).2).1

theorem fronts_of_reads {taken rest : List Token} (he : ts = taken ++ rest)
    (h : List.Forall₂ Token.ReadAs taken ls) : rest = ts.drop ls.length ∧ Fronts ls ts := by
  subst he
  constructor
  · rw [← h.length_eq, List.drop_left]
  · rwa [Fronts, ← h.length_eq, List.take_left]

/-- What `fill_reads` says, by the number of leaves. -/
theorem fill_fronts (hd : ts.dropWhile Token.isTrivia = ts)
    (h : Fronts t.leaves (Token.significant ts)) :
    ((t.fill ts).2 = ts.drop (t.fill ts).1.leaves.length ∧ Fronts (t.fill ts).1.leaves ts) ∧
      Token.significant (t.fill ts).2 = (Token.significant ts).drop t.leaves.length := by
  obtain ⟨used, he, hu, ha⟩ := fill_reads t hd (List.take_append_drop t.leaves.length _).symm h
  exact ⟨fronts_of_reads he hu, ha⟩

theorem fillAll_fronts (h : Fronts (leavesAll cs) (Token.significant ts)) :
    ((fillAll cs ts).2 = ts.drop (leavesAll (fillAll cs ts).1).length ∧
        Fronts (leavesAll (fillAll cs ts).1) ts) ∧
      Token.significant (fillAll cs ts).2 =
        (Token.significant ts).drop (leavesAll cs).length := by
  obtain ⟨used, he, hu, ha⟩ :=
    fillAll_reads cs (List.take_append_drop (leavesAll cs).length _).symm h
  exact ⟨fronts_of_reads he hu, ha⟩

/-- Where a node of a filled tree comes from: a node of the tree, and the tokens it is filled from,
of which the first is no trivia. -/
structure Filled (cs : List Tree) (ts before : List Token) (k : Kind) (gs : List Tree)
    (ahead : List Token) (ds : List Tree) (behind : List Token) : Prop where
  origin : Within cs ahead (node k ds) behind
  children : gs = (fillAll ds (ts.drop before.length)).1
  opens : (ts.drop before.length).dropWhile Token.isTrivia = ts.drop before.length
  significant : Token.significant (ts.drop before.length) =
    (Token.significant ts).drop ahead.length

mutual

theorem within_fill : (t : Tree) → {ts before after : List Token} →
    ts.dropWhile Token.isTrivia = ts → Fronts t.leaves (Token.significant ts) →
    Within [(t.fill ts).1] before (node k gs) after →
    ∃ ahead ds behind, Filled [t] ts before k gs ahead ds behind
  | leaf l x, ts, before, after, _, _, h => by
    rw [fill] at h
    cases h with
    | tail _ h => cases h
  | node l cs, ts, before, after, hd, hf, h => by
    rw [fill] at h
    cases h with
    | head => exact ⟨[], cs, [], .head _ [], rfl, hd, rfl⟩
    | inside _ _ h =>
      obtain ⟨ahead, ds, behind, hw, hc, ho, hs⟩ := within_fillAll cs hf h
      exact ⟨ahead, ds, _, .inside l [] hw, hc, ho, hs⟩
    | tail _ h => cases h

theorem within_fillAll : (cs : List Tree) → {ts before after : List Token} →
    Fronts (leavesAll cs) (Token.significant ts) →
    Within (fillAll cs ts).1 before (node k gs) after →
    ∃ ahead ds behind, Filled cs ts before k gs ahead ds behind
  | [], ts, before, after, _, h => by cases h
  | c :: cs, ts, before, after, hf, h => by
    set us := ts.dropWhile Token.isTrivia with hus
    set trivia := ts.takeWhile Token.isTrivia
    have hts : trivia ++ us = ts := List.takeWhile_append_dropWhile
    have hsig : Token.significant us = Token.significant ts := significant_dropWhile ts
    have hd : us.dropWhile Token.isTrivia = us := List.dropWhile_idempotent _ _
    obtain ⟨hc, hcs⟩ := fronts_append hf
    rw [← hsig] at hc hcs
    obtain ⟨⟨hrest, _⟩, hleft⟩ := fill_fronts hd hc
    have h : Within (trivia.map ofToken ++ ([(c.fill us).1] ++ (fillAll cs (c.fill us).2).1))
        before (node k gs) after := h
    -- Positions behind the trivia are positions in what is left of the tokens.
    have hdrop : ∀ ls : List Token,
        ts.drop (leavesAll (trivia.map ofToken) ++ ls).length = us.drop ls.length := by
      intro ls
      rw [leavesAll_ofToken, List.length_append, ← List.drop_drop, ← hts, List.drop_left]
    rcases within_append h with ⟨_, hw, _⟩ | ⟨before₁, hw, rfl⟩
    · exact (not_within_tokens hw).elim
    · rcases within_append hw with ⟨_, hu, _⟩ | ⟨before₂, hu, rfl⟩
      · obtain ⟨ahead, ds, behind, ho, hg, hopens, hs⟩ := within_fill c hd hc hu
        refine ⟨ahead, ds, _, within_append_left ho cs, ?_, ?_, ?_⟩
        · rw [hdrop, hg]
        · rw [hdrop, hopens]
        · rw [hdrop, hs, hsig]
      · obtain ⟨ahead, ds, behind, ho, hg, hopens, hs⟩ := within_fillAll cs (hleft ▸ hcs) hu
        have hmore : us.drop (leavesAll [(c.fill us).1] ++ before₂).length =
            (c.fill us).2.drop before₂.length := by
          rw [hrest, List.drop_drop, List.length_append]
          simp [leavesAll]
        refine ⟨_, ds, behind, .tail c ho, ?_, ?_, ?_⟩
        · rw [hdrop, hmore, hg]
        · rw [hdrop, hmore, hopens]
        · rw [hdrop, hmore, hs, hleft, List.drop_drop, hsig, List.length_append]

end

/-- The tokens that a node is filled from begin with those that its own leaves stand for. -/
theorem filled_fronts {ahead behind : List Token}
    (hf : Fronts (leavesAll cs) (Token.significant ts))
    (h : Filled cs ts before k gs ahead ds behind) :
    Fronts (leavesAll ds) (Token.significant (ts.drop before.length)) := by
  rw [h.significant]
  exact fronts_within hf h.origin

mutual

theorem fill_suffix : (t : Tree) → (ts : List Token) → (t.fill ts).2 <:+ ts
  | leaf _ _, ts => List.drop_suffix 1 ts
  | node _ cs, ts => fillAll_suffix cs ts

theorem fillAll_suffix : (cs : List Tree) → (ts : List Token) → (fillAll cs ts).2 <:+ ts
  | [], ts => List.suffix_refl ts
  | c :: cs, ts => by
    have hc := fill_suffix c (ts.dropWhile Token.isTrivia)
    have hcs := fillAll_suffix cs (c.fill (ts.dropWhile Token.isTrivia)).2
    exact hcs.trans (hc.trans (List.dropWhile_suffix _))

end

section Cut

variable {us left : List Token} {p : Token → Bool}

/-- What is passed over in front of some tokens does not reach into them. -/
theorem dropWhile_cut (h : (ts ++ us).dropWhile p = left ++ us) :
    ts.dropWhile p = left ∧ (ts ++ us).takeWhile p = ts.takeWhile p := by
  induction ts with
  | nil =>
    have hle := (List.dropWhile_sublist (l := us) p).length_le
    rw [List.nil_append] at h
    rw [h, List.length_append] at hle
    obtain rfl : left = [] := List.length_eq_zero_iff.mp (by omega)
    have hlen := congrArg List.length (List.takeWhile_append_dropWhile (p := p) (l := us))
    rw [h, List.nil_append, List.length_append] at hlen
    have hnone : us.takeWhile p = [] := List.length_eq_zero_iff.mp (by omega)
    exact ⟨rfl, hnone⟩
  | cons t ts ih =>
    by_cases ht : p t = true
    · rw [List.cons_append, List.dropWhile_cons_of_pos ht] at h
      obtain ⟨hd, hw⟩ := ih h
      rw [List.cons_append, List.dropWhile_cons_of_pos ht, List.takeWhile_cons_of_pos ht,
        List.takeWhile_cons_of_pos ht, hw]
      exact ⟨hd, rfl⟩
    · rw [List.cons_append, List.dropWhile_cons_of_neg ht, ← List.cons_append] at h
      rw [List.cons_append, List.dropWhile_cons_of_neg ht, List.takeWhile_cons_of_neg ht,
        List.takeWhile_cons_of_neg ht]
      exact ⟨List.append_cancel_right h, rfl⟩

mutual

/-- Tokens that a tree leaves when it is filled may as well be cut off. -/
theorem fill_cut : (t : Tree) → {ts left : List Token} → (t.fill (ts ++ us)).2 = left ++ us →
    t.fill ts = ((t.fill (ts ++ us)).1, left)
  | leaf k x, ts, left, h => by
    cases ts with
    | nil =>
      have hlen := congrArg List.length h
      simp only [fill, List.nil_append, List.length_drop, List.length_append] at hlen
      obtain rfl : left = [] := List.length_eq_zero_iff.mp (by omega)
      rfl
    | cons t ts =>
      have hts : ts ++ us = left ++ us := h
      rw [fill, fill, List.append_cancel_right hts]
      rfl
  | node k cs, ts, left, h => by
    have hcs := @fillAll_cut cs ts left h
    simp only [fill, hcs]

theorem fillAll_cut : (cs : List Tree) → {ts left : List Token} →
    (fillAll cs (ts ++ us)).2 = left ++ us → fillAll cs ts = ((fillAll cs (ts ++ us)).1, left)
  | [], ts, left, h => by
    have hts : ts ++ us = left ++ us := h
    rw [fillAll, fillAll, List.append_cancel_right hts]
  | c :: cs, ts, left, h => by
    set vs := (ts ++ us).dropWhile Token.isTrivia with hvs
    have hus : us <:+ (fillAll cs (c.fill vs).2).2 := by
      rw [show (fillAll cs (c.fill vs).2).2 = left ++ us from h]
      exact List.suffix_append left us
    obtain ⟨mid, hmid⟩ := hus.trans (fillAll_suffix cs (c.fill vs).2)
    obtain ⟨front, hfront⟩ := (hus.trans (fillAll_suffix cs _)).trans (fill_suffix c vs)
    obtain ⟨hdrop, htake⟩ := dropWhile_cut (hvs ▸ hfront.symm)
    have hc : (c.fill (front ++ us)).2 = mid ++ us := by rw [hfront, hmid]
    have hcs : (fillAll cs (mid ++ us)).2 = left ++ us := by
      rw [hmid]
      exact h
    have hc := fill_cut c hc
    have hcs := fillAll_cut cs hcs
    rw [hfront] at hc
    rw [hmid] at hcs
    simp only [fillAll, hdrop, htake, ← hvs, hc, hcs]

end

end Cut

end LogQuery.Tree

namespace LogQuery

open LogQuery.Tree (Within Fronts Filled leavesAll)

variable {query : Text} {before after : List Token} {k : Kind} {gs : List Tree}

/-- The tokens of a query that the grammar sees. -/
def significant (query : Text) : List Token := Token.significant (Token.lex query)

/-- The trees of a query before blanks and comments are put back. -/
def stripped (query : Text) : List Tree :=
  (Grammar.contents Grammar.maxLevels (significant query)).trees

theorem stripped_reads (query : Text) :
    List.Forall₂ Token.ReadAs (significant query) (leavesAll (stripped query)) :=
  Grammar.queryTree_reads Grammar.maxLevels (significant query)

theorem stripped_leaves (query : Text) : ∀ l ∈ leavesAll (stripped query), l.isTrivia = false :=
  Tree.leaves_significant (stripped_reads query)

theorem stripped_solid {before after : List Token} {k : Kind} {ds : List Tree}
    (h : Tree.Within (stripped query) before (.node k ds) after) :
    ∀ l ∈ leavesAll ds, l.isTrivia = false := by
  intro l hl
  apply stripped_leaves query l
  rw [Tree.within_leaves h]
  simp [Tree.leaves, hl]

theorem stripped_fronts (query : Text) : Fronts (leavesAll (stripped query)) (significant query) :=
  (Tree.fronts_of_reads (List.append_nil _).symm (stripped_reads query)).2

/-- Every node below the root is filled from a node of the grammar. -/
theorem parse_filled (h : Within (parse query).children before (.node k gs) after) :
    ∃ ahead ds behind,
      Filled (stripped query) (Token.lex query) before k gs ahead ds behind := by
  have h : Within ((Tree.fillAll (stripped query) (Token.lex query)).1 ++
      (Tree.fillAll (stripped query) (Token.lex query)).2.map .ofToken)
      before (.node k gs) after := h
  rcases Tree.within_append h with ⟨_, hw, _⟩ | ⟨_, hw, _⟩
  · exact Tree.within_fillAll _ (stripped_fronts query) hw
  · exact (Tree.not_within_tokens hw).elim

end LogQuery
