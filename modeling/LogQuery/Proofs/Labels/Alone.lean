import LogQuery.Proofs.Grammar.Enclosed
import LogQuery.Proofs.Structure
import LogQuery.Proofs.Token.Cut

/-! The text of a selector alone: lexed, parsed and filled again it gives the same selector. -/
namespace LogQuery

open Grammar (selector)
open LogQuery.Tree (Within leavesAll fillAll)

variable {query : Text} {before after taken : List Token} {cs ds : List Tree}

/-- The trees of a query that is one selector. -/
def selectorTrees (cs : List Tree) : List Tree :=
  [.node .expr [.node .logExpr [.node .selector cs]]]

/-- A walk that passes over expressions finds what there is in the selector. -/
theorem selectorTrees_walk {keep : Kind → Bool} (hexpr : keep .expr = false)
    (hlog : keep .logExpr = false) (cs : List Tree) (start : Nat) :
    Element.walkAll keep (Tree.elementsAt start (selectorTrees cs)) =
      ((Tree.node .selector cs).elementAt start).walk keep := by
  simp [selectorTrees, Tree.elementAt, Tree.elementsAt, Element.walk, Element.walkAll, Tree.kind,
    Kind.isNamed, Kind.isTrivia, Kind.isPunctuation, hexpr, hlog]

/-- Tokens that are a selector and nothing else. -/
theorem contents_selector (hb : Grammar.atKind .lBrace taken = true)
    (ht : (selector taken).trees = [.node .selector ds]) (hr : (selector taken).rest = []) :
    (Grammar.contents Grammar.maxLevels taken).trees = selectorTrees ds := by
  obtain ⟨t, ts, rfl, hk⟩ := Grammar.atKind_cons hb
  set f := Grammar.node .expr (Grammar.logExpr 255) (t :: ts) with hf
  have htrees : f.trees = selectorTrees ds ∧ f.rest = [] := by
    simp [hf, Grammar.logExpr, Grammar.node, Grammar.nodeBy, Grammar.seq, Grammar.andThen,
      Grammar.Found.followed, Grammar.when, ht, hr, Grammar.atStage, Grammar.atLineFilter,
      Grammar.nothing, selectorTrees]
  have ho : Grammar.operand 255 (Grammar.expr 255 0) (t :: ts) =
      ⟨selectorTrees ds, [], f.depth, f.cut⟩ := by
    rw [← htrees.1, ← htrees.2]
    simp [Grammar.operand, hk, hf]
  have hexpr : (Grammar.expr Grammar.maxLevels 0 (t :: ts)).trees = selectorTrees ds ∧
      (Grammar.expr Grammar.maxLevels 0 (t :: ts)).rest = [] := by
    rw [Grammar.maxLevels, Grammar.expr, Grammar.deepen, Grammar.chain_eq ho,
      Grammar.joined_of_none rfl]
    exact ⟨rfl, rfl⟩
  have hm : (Grammar.expr Grammar.maxLevels 0 (t :: ts)).makes .expr = true := by
    rw [Grammar.Found.makes, hexpr.1]
    rfl
  simp only [Grammar.contents, Grammar.andThen, Grammar.Found.followed, hexpr.2, List.isEmpty_nil,
    if_true, Grammar.Found.orMissing, hm, hexpr.1]
  exact List.append_nil _

/-- Tokens in front of others, once these are cut off, if they end with a closing brace or the
others begin where selectors stop. -/
theorem lexed_selector {used left : List Token} (h : Token.Lexed (used ++ left))
    (hend : (∃ front u, Token.significant used = front ++ [u] ∧ u.kind = .rBrace) ∨
      Grammar.Stopped (Token.significant left)) : Token.Lexed used := by
  cases Token.lexed_left h with
  | whole h => exact h
  | @minute used left u v _ hu =>
    exfalso
    rcases hend with ⟨front, b, hb, hk⟩ | hstop
    · rw [Tree.significant_append] at hb
      have hl := congrArg List.getLast? hb
      have hv : Token.significant [⟨.number, v⟩] = [⟨.number, v⟩] := rfl
      rw [hv, List.getLast?_concat, List.getLast?_concat] at hl
      obtain rfl := Option.some.inj hl
      cases hk
    · have ht : u.isTrivia = false := by
        rw [Token.isTrivia, hu]
        rfl
      rw [Token.significant_cons ht] at hstop
      have hs := hstop u rfl
      rw [hu] at hs
      exact absurd hs (by decide)

/-- Tokens that begin with a selector: the text that it is filled from, parsed alone. -/
theorem parse_filled_selector {ts : List Token} (hlexed : Token.Lexed ts)
    (hopens : ts.dropWhile Token.isTrivia = ts)
    (hbrace : Grammar.atKind .lBrace (Token.significant ts) = true)
    (htrees : (selector (Token.significant ts)).trees = [.node .selector ds]) :
    parse (Tree.textAll (fillAll ds ts).1) = .node .logQl (selectorTrees (fillAll ds ts).1) := by
  obtain ⟨taken, htaken, hopen, halone, hnone, hend⟩ := Grammar.selector_alone hbrace
  obtain ⟨b, bs, he, hb⟩ := Grammar.atKind_cons hbrace
  obtain ⟨us, hus, hr⟩ := he ▸ (Grammar.selector_sound hb bs).reads
  set rest := (selector (Token.significant ts)).rest
  rw [htrees] at halone hr
  obtain rfl : us = taken := List.append_cancel_right (hus.symm.trans htaken)
  have hreads : List.Forall₂ Token.ReadAs us (leavesAll ds) := by
    simpa [leavesAll, Tree.leaves] using hr
  obtain ⟨used, hused, hfilled, hleft⟩ := Tree.fillAll_reads ds hus hreads
  set left := (fillAll ds ts).2 with hl
  clear_value left rest
  subst hused
  have hsig : Token.significant used = us := by
    rw [Tree.significant_append, hleft] at htaken
    exact List.append_cancel_right htaken
  have hlex : Token.lex (Token.spelled used) = used := by
    apply lexed_selector hlexed
    rw [hsig, hleft]
    exact hend
  have htext : Tree.textAll (fillAll ds (used ++ left)).1 = Token.spelled used := by
    rw [Tree.textAll_leaves]
    exact Tree.text_of_reads hfilled
  have hcut : fillAll ds used = ((fillAll ds (used ++ left)).1, []) := Tree.fillAll_cut ds hl.symm
  have hown : used.dropWhile Token.isTrivia = used := by
    cases used with
    | nil => rfl
    | cons u used =>
      rw [List.dropWhile_eq_self_iff] at hopens ⊢
      exact fun _ => hopens (by simp)
  have htake : used.takeWhile Token.isTrivia = [] :=
    List.takeWhile_eq_nil_iff.mpr (List.dropWhile_eq_self_iff.mp hown)
  rw [htext, parse, hlex, hsig, Grammar.queryTree, contents_selector hopen halone hnone]
  simp [Tree.withTrivia, selectorTrees, fillAll, Tree.fill, hown, htake, hcut]

/-- The text of a selector in a query, parsed alone, has the same selector in its tree. -/
theorem parse_selector (h : Within (parse query).children before (.node .selector cs) after) :
    parse (Tree.textAll cs) = .node .logQl (selectorTrees cs) := by
  obtain ⟨ahead, ds, behind, hf⟩ := parse_filled h
  have hs := stripped_sites query ahead _ ds behind hf.origin
  rw [significant, ← hf.significant] at hs
  obtain ⟨hbrace, htrees⟩ := hs.selector rfl
  have hlexed : Token.Lexed ((Token.lex query).drop before.length) := by
    have hall := Token.lexed_lex query
    rw [← List.take_append_drop before.length (Token.lex query)] at hall
    exact Token.lexed_right hall
  rw [hf.children]
  exact parse_filled_selector hlexed hf.opens hbrace htrees

end LogQuery
