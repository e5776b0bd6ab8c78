import LogQuery.Proofs.Acceptance
import LogQuery.Proofs.Layout
import LogQuery.Proofs.Lines
import LogQuery.Proofs.Origin.Nested

/-! Queries that search lines for one string: what the string is, that is what they filter by. -/
namespace LogQuery

open Kind (mark)
open LogQuery.Tree (Spot)

namespace LineEntry

/-- The kind of an operator's sign. -/
def Op.kind : Op → Kind
  | line .contains => .pipeExact
  | line .lacks => .neq
  | line .regexMatches => .pipeMatch
  | line .regexLacks => .nre
  | pattern .fits => .pipePattern
  | pattern .unlike => .npa

theorem kind_symbol (o : Op) : o.kind.symbol.toList = o.symbol := by
  rcases o with op | op <;> cases op <;> rfl

theorem kind_mem (o : Op) : o.kind ∈ Grammar.lineOps := by
  rcases o with op | op <;> cases op <;> decide

theorem symbol_injective : Function.Injective Op.symbol := by
  intro o p h
  rcases o with op | op <;> rcases p with other | other <;> cases op <;> cases other <;>
    first | rfl | cases h

/-- The entry for a value between quotes. -/
def Op.entry (value quote : Text) (number : Nat) : Op → LineEntry
  | line op => .line (lineFilter value quote number op)
  | pattern op => .pattern ⟨op, value.replace ['\\', '"'] ['"']⟩

end LineEntry

/-- A selector, and one line filter behind it. -/
def searchSentence (o : LineEntry.Op) (x : Lexeme .string) : Sentence where
  matchers := plainSelector.matchers
  comma := plainSelector.comma
  stages := [.line ⟨⟨o.kind, LineEntry.kind_mem o⟩, .text x, []⟩]

/-- The tokens of the selector ahead of its closing brace. -/
def openTokens : List Token := mark .lBrace :: commaTokens Matching.tokens plainSelector.matchers

def shortSelector : Text := "\x7ba=\"b\"\x7d".toList

/-- Such a query, with blanks ahead of the sign of the filter and behind it. -/
def searchText (ahead : Text) (o : LineEntry.Op) (gap string : Text) : Text :=
  shortSelector ++ ahead ++ o.symbol ++ gap ++ string

namespace Token

variable {bs rest ahead gap : Text}

/-- Blanks are one token, if there are any. -/
def blanks (bs : Text) : List Token := if bs.isEmpty then [] else [⟨.whitespace, bs⟩]

theorem significant_blanks (bs : Text) (ts : List Token) :
    significant (blanks bs ++ ts) = significant ts := by
  unfold blanks
  split
  · rfl
  · exact significant_blank bs ts

theorem lex_between (hbs : ∀ b ∈ bs, isBlank b = true) (hr : ∀ c ∈ rest.head?, isBlank c = false) :
    lex (bs ++ rest) = blanks bs ++ lex rest := by
  cases bs with
  | nil => rfl
  | cons b bs => exact lex_blanks (hbs b (.head _)) (fun c hc => hbs c (.tail b hc)) hr

/-- A sign of a line filter ahead of blanks or of a quote is a token of its own. -/
theorem lex_symbol (o : LineEntry.Op) (rest : Text) :
    lex (o.symbol ++ rest) = mark o.kind :: lex rest := by
  rcases o with op | op <;> cases op <;> exact lex_cons _ _

theorem symbol_not_blank (o : LineEntry.Op) (rest : Text) :
    ∀ c ∈ (o.symbol ++ rest).head?, isBlank c = false := by
  have hhead : ∃ c cs, o.symbol = c :: cs ∧ isBlank c = false := by
    rcases o with op | op <;> cases op <;> exact ⟨_, _, rfl, rfl⟩
  obtain ⟨c, cs, hc, hb⟩ := hhead
  intro d hd
  rw [hc, List.cons_append, List.head?_cons] at hd
  exact Option.some.inj hd ▸ hb

theorem lex_search (hahead : ∀ b ∈ ahead, isBlank b = true) (o : LineEntry.Op)
    (hgap : ∀ b ∈ gap, isBlank b = true) (x : Lexeme .string) :
    lex (searchText ahead o gap x.text) =
      openTokens ++ [mark .rBrace] ++
        (blanks ahead ++ (mark o.kind :: (blanks gap ++ [x.token]))) := by
  have hselector : Lexed (openTokens ++ [mark .rBrace]) := by
    unfold Lexed
    decide +kernel
  have hclosed := lex_closed hselector (by decide) (ahead ++ (o.symbol ++ (gap ++ x.text)))
  have hstring : lex (gap ++ x.text) = blanks gap ++ [x.token] := by
    have h := lex_between hgap (whole_not_blank (string_whole x) [])
    rw [List.append_nil] at h
    exact h.trans (congrArg (blanks gap ++ ·) x.lexes)
  have hplain : shortSelector = spelled openTokens ++ ['}'] := by decide +kernel
  have htext : searchText ahead o gap x.text =
      spelled openTokens ++ '}' :: (ahead ++ (o.symbol ++ (gap ++ x.text))) := by
    rw [List.append_cons, ← hplain]
    simp only [searchText, List.append_assoc]
  rw [htext, hclosed, lex_between hahead (symbol_not_blank o _), lex_symbol, hstring]
  simp only [List.append_assoc, List.singleton_append]

end Token

section Search

variable {ahead gap : Text} (o : LineEntry.Op) (x : Lexeme .string)

theorem searchSentence_tokens : (searchSentence o x).tokens =
    openTokens ++ [mark .rBrace] ++ [mark o.kind, x.token] := rfl

/-- The blanks are all that is lost. -/
theorem significant_search (hahead : ∀ b ∈ ahead, Token.isBlank b = true)
    (hgap : ∀ b ∈ gap, Token.isBlank b = true) :
    Token.significant (Token.lex (searchText ahead o gap x.text)) =
      (searchSentence o x).tokens := by
  have hsign : (mark o.kind).isTrivia = false := by
    rcases o with op | op <;> cases op <;> rfl
  have hselector : Token.significant (openTokens ++ [mark .rBrace]) =
      openTokens ++ [mark .rBrace] := by decide +kernel
  rw [Token.lex_search hahead o hgap, Tree.significant_append, hselector,
    Token.significant_blanks, Token.significant_cons hsign, Token.significant_blanks,
    Token.significant_cons (Token.whole_significant (string_whole x)), searchSentence_tokens]
  rfl

theorem searchSentence_readable : (searchSentence o x).Readable := by
  constructor
  · intro t ht
    obtain rfl := List.mem_singleton.mp ht
    rfl
  · simp [searchSentence]

/-- Without blanks, the tree of the query is the one that it is to have. -/
theorem parse_search : parse (searchText [] o [] x.text) = (searchSentence o x).tree := by
  have hsignificant : Token.significant (Token.lex (searchText [] o [] x.text)) =
      (searchSentence o x).tokens := significant_search o x (by simp) (by simp)
  have hlex : Token.lex (searchText [] o [] x.text) = (searchSentence o x).tokens :=
    Token.lex_search (by simp) o (by simp) x
  have hlevels : (searchSentence o x).levels ≤ Grammar.maxLevels := by
    simp [searchSentence, Sentence.levels, deepest, Stage.levels, LineTest.levels,
      Grammar.maxLevels]
  have htree : (parse (searchText [] o [] x.text)).strip = (searchSentence o x).tree := by
    rw [parse_strip, hsignificant,
      Grammar.queryTree_sentence _ hlevels (searchSentence_readable o x)]
  have hreads := parse_reads (searchText [] o [] x.text)
  rw [hlex, ← hsignificant] at hreads
  rw [← htree]
  exact (Tree.strip_eq_self _ (Tree.leaves_significant hreads)).symm

theorem search_valid : isValid (searchText [] o [] x.text) = true := by
  have herror : (searchSentence o x).tree.holds .error = false := by
    rw [Tree.holds, Bool.eq_false_iff]
    exact fun h => Tree.sentence_flawless _ (List.contains_iff_mem.mp h)
  rw [isValid, hasElement, parse_search, herror]
  rfl

theorem search_selector : firstSelector? (searchText [] o [] x.text) ≠ none := by
  rw [firstSelector_spots, parse_search]
  exact Option.some_ne_none _

/-- There is one string that lines are searched for. -/
theorem search_literals :
    lineLiterals (searchText [] o [] x.text) = [⟨0, o.symbol, x.token⟩] := by
  obtain ⟨hfilter, hstring⟩ : o.kind ≠ .lineFilter ∧ o.kind ≠ .string :=
    (by decide : ∀ k ∈ Grammar.lineOps, k ≠ .lineFilter ∧ k ≠ .string) _ (LineEntry.kind_mem o)
  obtain ⟨s, hs, ht⟩ : ∃ s, (searchSentence o x).tree.spots .lineFilter = [s] ∧
      s.tree = (LineTest.mk ⟨o.kind, LineEntry.kind_mem o⟩ (.text x) []).tree := by
    simp [searchSentence, Sentence.tree, Sentence.selectorTree, Sentence.matchersTrees,
      Sentence.commas, Sentence.pipelineTrees, Stage.trees, Stage.lineTrees, Stage.leadingLines,
      Stage.blocks, commaTrees, Matching.tree, Matching.tokens, LineTest.tree, LineTest.orTrees,
      LineValue.trees, Tree.spots, Tree.spotsAll, Tree.ofToken, mark, Lexeme.token, Sign.token,
      plainSelector, Spot.under, hfilter]
  rw [lineLiterals, parse_search, hs]
  simp [ht, LineTest.tree, LineTest.orTrees, LineValue.trees, Tree.literals, Tree.literalsAll,
    Tree.sign, Tree.ofToken, Tree.children, Tree.kind, Tree.text, Tree.textAll, Sign.token, mark,
    LineEntry.kind_symbol, Lexeme.token, hstring]

end Search

section Entry

variable {l : LineLiteral} {entry : LineEntry} {o : LineEntry.Op}

/-- What a string gives is settled by the sign of its filter. -/
theorem entry_unique (h : l.GivesEntry entry) (ho : o.symbol = l.sign) :
    entry = o.entry l.value l.quote l.number := by
  cases h with
  | line f h =>
    cases h with
    | insensitive op before after hop hi hplain hfirst =>
      obtain rfl : o = .line op := LineEntry.symbol_injective (ho.trans hop.symm)
      have hin := (Text.hasInfix_iff LineEntry.caseMark l.value).mpr hi.2
      have hremoved := Text.removeFirst_eq rfl hfirst
      simp only [LineEntry.Op.entry, LineEntry.lineFilter, plain_iff.mp hplain, hi.1, hin, hremoved]
      rfl
    | sensitive op value hop hi hplain =>
      obtain rfl : o = .line op := LineEntry.symbol_injective (ho.trans hop.symm)
      have hn : ¬ (op.isRegex && LineEntry.caseMark.hasInfix l.value) = true := by
        rwa [Bool.and_eq_true, Text.hasInfix_iff]
      rw [LineEntry.Op.entry, LineEntry.lineFilter, if_neg hn, plain_iff.mp hplain]
  | pattern f h =>
    cases h with
    | pattern op value hop hvalue =>
      obtain rfl : o = .pattern op := LineEntry.symbol_injective (ho.trans hop.symm)
      rw [LineEntry.Op.entry, (Text.replaced_iff (by simp)).mp hvalue]

end Entry

section Found

variable {ahead gap : Text} (o : LineEntry.Op) (x : Lexeme .string) (hx : x.token.value ≠ [])
  (types : LabelTypes)

include hx

theorem search_entries : LineEntry.ofQuery (searchText [] o [] x.text) =
    [o.entry x.token.value (x.token.text.take 1) 0] := by
  have hvalue : (⟨0, o.symbol, x.token⟩ : LineLiteral).value ≠ [] := hx
  have hgiven := ofQuery_given (search_valid o x)
  rw [search_literals, List.filter_cons_of_pos (by simpa using hvalue), List.filter_nil] at hgiven
  obtain ⟨entry, rest, hgives, hrest, hentries⟩ := List.forall₂_cons_left_iff.mp hgiven
  rw [hentries, List.forall₂_nil_left_iff.mp hrest, entry_unique hgives rfl]
  rfl

/-- Of a query that searches for one string, all filters on lines and on patterns are the one that
the string and the sign give. -/
theorem search_found (hahead : ∀ b ∈ ahead, Token.isBlank b = true)
    (hgap : ∀ b ∈ gap, Token.isBlank b = true) :
    (drilldown (searchText ahead o gap x.text) types).lines =
        (o.entry x.token.value (x.token.text.take 1) 0).line?.toList ∧
      (drilldown (searchText ahead o gap x.text) types).patterns =
        (o.entry x.token.value (x.token.text.take 1) 0).pattern?.toList := by
  have hsame : significant (searchText ahead o gap x.text) =
      significant (searchText [] o [] x.text) := by
    rw [significant, significant, significant_search o x hahead hgap,
      significant_search o x (by simp) (by simp)]
  obtain ⟨-, hlines, hpatterns⟩ := filters_same hsame types
  obtain ⟨selector, hselector⟩ := Option.ne_none_iff_exists'.mp (search_selector o x)
  rw [hlines, hpatterns, drilldown, hselector, search_entries o x hx]
  rcases o with op | op <;> exact ⟨rfl, rfl⟩

end Found

end LogQuery
