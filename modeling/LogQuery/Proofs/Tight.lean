import LogQuery.Proofs.Tree.Filled
import LogQuery.Query

/-! How far nodes reach into the blanks and comments around them. No node begins with any. A node
ends with some only where its last part is an empty error node. -/
namespace LogQuery

namespace Tree

variable {t : Tree} {c : Tree} {cs ds : List Tree} {ts before after : List Token} {k : Kind}

mutual

/-- Whether there is an empty node at the right edge of a tree. -/
def endsBare : Tree → Bool
  | leaf _ _ => false
  | node _ cs => endsBareAll cs

def endsBareAll : List Tree → Bool
  | [] => true
  | [c] => c.endsBare
  | _ :: c :: cs => endsBareAll (c :: cs)

end

theorem endsBareAll_append (cs : List Tree) (d : Tree) (ds : List Tree) :
    endsBareAll (cs ++ d :: ds) = endsBareAll (d :: ds) := by
  induction cs with
  | nil => rfl
  | cons c cs ih =>
    cases cs with
    | nil => rfl
    | cons b cs => exact ih

mutual

theorem endsBare_fill : (t : Tree) → (ts : List Token) → (t.fill ts).1.endsBare = t.endsBare
  | leaf _ _, _ => rfl
  | node _ cs, ts => endsBareAll_fillAll cs ts

theorem endsBareAll_fillAll : (cs : List Tree) → (ts : List Token) →
    endsBareAll (fillAll cs ts).1 = endsBareAll cs
  | [], _ => rfl
  | [c], ts => by
    have hc := endsBare_fill c (ts.dropWhile Token.isTrivia)
    simp only [fillAll, endsBareAll_append, endsBareAll, hc]
  | c :: d :: cs, ts => by
    have hcs := endsBareAll_fillAll (d :: cs) (c.fill (ts.dropWhile Token.isTrivia)).2
    rw [fillAll, endsBareAll_append, endsBareAll, ← hcs]
    rw [fillAll]
    set trivia := ((c.fill (ts.dropWhile Token.isTrivia)).2.takeWhile Token.isTrivia).map ofToken
    cases trivia with
    | nil => rfl
    | cons b bs => rfl

end

mutual

/-- A tree without an empty node at its edge ends on a leaf of its own, which is no trivia. -/
theorem fill_closes : (t : Tree) → (ts : List Token) → (∀ l ∈ t.leaves, l.isTrivia = false) →
    t.endsBare = false → ∃ l ∈ (t.fill ts).1.leaves.getLast?, l.isTrivia = false
  | leaf k x, _, hl, _ => ⟨⟨k, x⟩, rfl, hl _ (.head _)⟩
  | node _ cs, ts, hl, h => fillAll_closes cs ts hl h

theorem fillAll_closes : (cs : List Tree) → (ts : List Token) →
    (∀ l ∈ leavesAll cs, l.isTrivia = false) → endsBareAll cs = false →
    ∃ l ∈ (leavesAll (fillAll cs ts).1).getLast?, l.isTrivia = false
  | [], _, _, h => by cases h
  | [c], ts, hl, h => by
    obtain ⟨l, hm, ht⟩ := fill_closes c (ts.dropWhile Token.isTrivia)
      (fun l hm => hl l (List.mem_append_left _ hm)) h
    refine ⟨l, ?_, ht⟩
    simp [fillAll, leavesAll_append, leavesAll, List.getLast?_append, Option.mem_def.mp hm]
  | c :: d :: cs, ts, hl, h => by
    obtain ⟨l, hm, ht⟩ := fillAll_closes (d :: cs) (c.fill (ts.dropWhile Token.isTrivia)).2
      (fun l hm => hl l (List.mem_append_right _ hm)) h
    refine ⟨l, ?_, ht⟩
    rw [fillAll, leavesAll_append, leavesAll, List.getLast?_append, List.getLast?_append,
      Option.mem_def.mp hm]
    rfl

end

mutual

/-- An empty node takes the trivia ahead of it out of the tokens, and with them of those that are
left. -/
theorem fill_bare : (t : Tree) → {ts : List Token} → ts.dropWhile Token.isTrivia = ts →
    t.endsBare = true → (t.fill ts).2.dropWhile Token.isTrivia = (t.fill ts).2
  | leaf _ _, _, _, h => by cases h
  | node _ [], _, hd, _ => hd
  | node _ (c :: cs), _, _, h => fillAll_bare (c :: cs) (List.cons_ne_nil c cs) h

theorem fillAll_bare : (cs : List Tree) → {ts : List Token} → cs ≠ [] → endsBareAll cs = true →
    (fillAll cs ts).2.dropWhile Token.isTrivia = (fillAll cs ts).2
  | [], _, hne, _ => (hne rfl).elim
  | [c], _, _, h => fill_bare c (List.dropWhile_idempotent _ _) h
  | _ :: d :: cs, _, _, h => fillAll_bare (d :: cs) (List.cons_ne_nil d cs) h

end

theorem fronts_head {ls : List Token} (h : Fronts ls ts) (hd : ts.dropWhile Token.isTrivia = ts) :
    ∀ l ∈ ls.head?, l.isTrivia = false := by
  intro l hl
  cases ls with
  | nil => cases hl
  | cons m ls =>
    obtain rfl := Option.some.inj hl
    cases ts with
    | nil => cases h
    | cons t ts =>
      have ht := List.dropWhile_eq_self_iff.mp hd (by simp)
      rw [List.getElem_cons_zero, Bool.not_eq_true] at ht
      cases h with
      | cons hr _ => exact (readAs_trivia hr).trans ht

/-- No production has room for nothing at all. -/
theorem production_nil (k : Kind) : [] ∉ (Grammar.production k).matches' := by
  have h : (Grammar.production k).matchEpsilon = false := by cases k <;> rfl
  rw [← RegularExpression.rmatch_iff_matches']
  simp [RegularExpression.rmatch, h]

mutual

/-- There are no empty nodes in a tree that conforms. -/
theorem conforms_endsBare : (t : Tree) → t.Conforms → t.endsBare = false
  | leaf _ _, _ => rfl
  | node k [], h => by
    cases h with
    | node _ _ hw _ => exact (production_nil k hw).elim
  | node k (c :: cs), h => by
    cases h with
    | node _ _ _ hcs => exact conforms_endsBareAll (c :: cs) (List.cons_ne_nil c cs) hcs

theorem conforms_endsBareAll : (cs : List Tree) → cs ≠ [] → (∀ c ∈ cs, c.Conforms) →
    endsBareAll cs = false
  | [], hne, _ => (hne rfl).elim
  | [c], _, h => conforms_endsBare c (h c (.head _))
  | c :: d :: cs, _, h =>
    conforms_endsBareAll (d :: cs) (List.cons_ne_nil d cs) fun b hb => h b (.tail c hb)

end

theorem conforms_within {u : Tree} (hcs : ∀ c ∈ cs, c.Conforms) (h : Within cs before u after) :
    u.Conforms := by
  induction h with
  | head c cs => exact hcs c (.head _)
  | inside k cs h ih =>
    cases hcs _ (.head _) with
    | node _ _ _ hds => exact ih hds
  | tail c h ih => exact ih fun d hd => hcs d (.tail c hd)

end Tree

open LogQuery.Tree (Within Fronts Filled leavesAll)

variable {query : Text} {before after : List Token} {k : Kind} {u : Tree} {cs : List Tree}

/-- The tokens behind a tree are what comes in the query behind its own. -/
theorem fronts_after (h : Within (parse query).children before u after) :
    Fronts after ((Token.lex query).drop (before ++ u.leaves).length) := by
  have hr := parse_reads query
  rw [parse_leaves h] at hr
  exact (Tree.fronts_append (Tree.fronts_of_reads (List.append_nil _).symm hr).2).2

theorem stripped_flawless (h : isValid query = true) : .error ∉ Tree.kindsAll (stripped query) := by
  intro he
  have hq : .error ∈ (Grammar.queryTree Grammar.maxLevels (significant query)).kinds :=
    List.mem_cons_of_mem _ he
  have hf := Tree.kinds_withTrivia _ (Token.lex query) hq
  simp_all [isValid, hasElement, Tree.holds, parse, significant, Kind.isNamed, Kind.isTrivia,
    Kind.isPunctuation]

theorem strip_conforms (h : isValid query = true) : (parse query).strip.Conforms := by
  rw [parse_strip]
  refine Grammar.queryTree_conforms _ _ fun he => ?_
  rcases List.mem_cons.mp he with he | he
  · cases he
  · exact stripped_flawless h he

theorem stripped_conforms (h : isValid query = true) : ∀ c ∈ stripped query, c.Conforms := by
  have hc := strip_conforms h
  rw [parse_strip] at hc
  cases hc with
  | node _ _ _ hcs => exact hcs

/-- Every node below the root begins on a significant token. It ends on one too, unless there is an
empty node at its right edge: then it takes all blanks and comments up to the next significant
token. In a valid query there are no empty nodes. -/
theorem parse_tight (h : Within (parse query).children before (.node k cs) after) :
    (∀ l ∈ (leavesAll cs).head?, l.isTrivia = false) ∧
      ((Tree.node k cs).endsBare = false → ∃ l ∈ (leavesAll cs).getLast?, l.isTrivia = false) ∧
      ((Tree.node k cs).endsBare = true → ∀ l ∈ after.head?, l.isTrivia = false) ∧
      (isValid query = true → (Tree.node k cs).endsBare = false) := by
  obtain ⟨ahead, ds, behind, hf⟩ := parse_filled h
  have hfronts := Tree.filled_fronts (stripped_fronts query) hf
  obtain ⟨⟨hrest, hown⟩, -⟩ := Tree.fillAll_fronts hfronts
  rw [← hf.children] at hrest hown
  have hbare : (Tree.node k cs).endsBare = (Tree.node k ds).endsBare := by
    rw [hf.children]
    exact Tree.endsBareAll_fillAll ds _
  refine ⟨Tree.fronts_head hown hf.opens, ?_, ?_, ?_⟩
  · intro he
    rw [hbare] at he
    rw [hf.children]
    exact Tree.fillAll_closes ds _ (stripped_solid hf.origin) he
  · intro he
    rw [hbare] at he
    apply Tree.fronts_head (fronts_after h)
    have hleft : (Token.lex query).drop (before ++ (Tree.node k cs).leaves).length =
        ((Tree.node k ds).fill ((Token.lex query).drop before.length)).2 := by
      rw [List.length_append, ← List.drop_drop, Tree.leaves, ← hrest]
      rfl
    rw [hleft]
    exact Tree.fill_bare (.node k ds) hf.opens he
  · intro hv
    rw [hbare]
    exact Tree.conforms_endsBare _ (Tree.conforms_within (stripped_conforms hv) hf.origin)

/-- A query whose matcher has no string, and a blank at its end. -/
def bareText : Text := "\x7ba= \x7d".toList

/-- What the matcher holds: the empty error node stands behind the blank. -/
def bareMatcher : List Tree :=
  [.leaf .identifier ['a'], .leaf .eq ['='], .leaf .whitespace [' '], .node .error []]

theorem bareMatcher_within :
    Within (parse bareText).children [⟨.lBrace, ['{']⟩] (.node .matcher bareMatcher)
      [⟨.rBrace, ['}']⟩] := by
  have h : (parse bareText).children = [.node .expr [.node .logExpr [.node .selector
      [.leaf .lBrace ['{'], .node .matchers [.node .matcher bareMatcher],
        .leaf .rBrace ['}']]]]] := rfl
  rw [h]
  exact .inside _ [] (.inside _ [] (.inside _ [] (.tail _ (.inside _ _ (.head _ [])))))

theorem parse_tight_bare :
    (∀ l ∈ (leavesAll bareMatcher).head?, l.isTrivia = false) ∧
      ((Tree.node .matcher bareMatcher).endsBare = true → isValid bareText = false) := by
  obtain ⟨hhead, -, -, hvalid⟩ := parse_tight bareMatcher_within
  refine ⟨hhead, fun hb => ?_⟩
  by_contra hv
  rw [hvalid (by simpa using hv)] at hb
  cases hb

/-- Spans are not always tight at their ends. -/
theorem parse_not_tight :
    ¬ ∀ (query : Text) (before after : List Token) (k : Kind) (cs : List Tree),
      Within (parse query).children before (.node k cs) after → leavesAll cs ≠ [] →
      (∀ l ∈ (leavesAll cs).head?, l.isTrivia = false) ∧
        ∀ l ∈ (leavesAll cs).getLast?, l.isTrivia = false := by
  intro h
  have hlast := (h _ _ _ _ _ bareMatcher_within (by simp [bareMatcher, leavesAll, Tree.leaves])).2
  exact absurd (hlast ⟨.whitespace, [' ']⟩ rfl) (by decide)

end LogQuery
