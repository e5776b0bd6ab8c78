import LogQuery.Proofs.Drilldown.Source
import LogQuery.Proofs.Sentence.Printed

/-! The tokens of a written drilldown, with their blanks. -/
namespace LogQuery

open Kind (mark)
open Token (blank lex)
open LogQuery.Tree (airyTokens)

namespace LabelClause

theorem lex_clause (c : LabelClause) (rest : Text) :
    lex (c.text ++ rest) = c.matching.tokens ++ lex rest := by
  have h := Token.lex_matching c.name (c.op.matcher_kind c.matches_value) c.value rest
  rw [Comparison.mark_text] at h
  rw [text, List.append_assoc, List.append_assoc, h]
  rfl

/-- A blank before a clause is a token by itself. -/
theorem lex_blank_clause (c : LabelClause) (rest : Text) :
    lex (' ' :: (c.text ++ rest)) = blank :: (c.matching.tokens ++ lex rest) := by
  have hname := Token.whole_not_blank (identifier_whole c.name)
    (c.op.symbol.toList ++ (c.value.token.text ++ rest))
  rw [← c.lex_clause, text, List.append_assoc, List.append_assoc]
  exact @Token.lex_blanks ' ' [] _ rfl (by simp) hname

end LabelClause

namespace LineClause

/-- The tokens of a clause with blanks between them. -/
def tokens (c : LineClause) : List Token := [mark c.op.kind, blank, c.value.token]

theorem text_tokens (c : LineClause) : c.text = c.test.tokens.flatMap fun u => ' ' :: u.text := by
  simp [text, test, LineTest.tokens, LineTest.orTokens, LineValue.tokens, Sign.token,
    ← LineOp.mark_text, RawText.lexeme, Lexeme.token]

end LineClause

namespace FieldClause

def tokens (c : FieldClause) : List Token :=
  [mark .pipe, blank, c.name.token, blank, mark c.test.op.kind, blank, c.test.written]

theorem labelTest_tokens (c : FieldClause) :
    c.labelTest.tokens = [c.name.token, mark c.test.op.kind, c.test.written] := by
  obtain ⟨name, test, _, _⟩ := c
  cases test <;> rfl

theorem text_tokens (c : FieldClause) :
    c.text = (mark .pipe :: c.labelTest.tokens).flatMap fun u => ' ' :: u.text := by
  rw [labelTest_tokens, text, body, ← Comparison.mark_text]
  simp [mark, Kind.symbol, Lexeme.token]

end FieldClause

namespace DrilldownSource

variable (s : DrilldownSource)

/-- The tokens of the stages without their blanks. -/
def trail : List Token := s.sentence.stages.flatMap Stage.tokens

def wordTokens (w : Keyword) : List Token := [mark .pipe, blank, w.token]

/-- The trail part by part. -/
theorem trail_eq : s.trail = s.lines.flatMap (·.test.tokens) ++
    (s.parser.words.flatMap (fun w => [mark .pipe, w.token]) ++
      s.fields.flatMap fun c => mark .pipe :: c.labelTest.tokens) := by
  have hw : (s.parser.words.map wordStage).flatMap (fun p => mark .pipe :: p.tokens) =
      s.parser.words.flatMap fun w => [mark .pipe, w.token] := by
    cases s.parser <;> rfl
  rw [← hw]
  simp [trail, sentence, piped, List.flatMap_map, Stage.tokens, fieldStage, Piped.tokens,
    LabelDisjunction.tokens, LabelConjunction.tokens, LabelOperand.tokens]

theorem text_trail :
    s.text = s.selectorText ++ s.trail.flatMap fun u => ' ' :: u.text := by
  have hl : LineClause.text = fun c => c.test.tokens.flatMap fun u => ' ' :: u.text :=
    funext LineClause.text_tokens
  have hf : FieldClause.text =
      fun c => (mark .pipe :: c.labelTest.tokens).flatMap fun u => ' ' :: u.text :=
    funext FieldClause.text_tokens
  simp [trail_eq, text, head, ParserChoice.text, List.flatMap_assoc, hl, hf, Keyword.token, mark,
    Kind.symbol]

theorem trail_whole : ∀ t ∈ s.trail, t.Whole :=
  printed_flatMap stage_printed s.sentence.stages

/-- The tokens of the stages with their blanks, in one group for each part. -/
def groups : List (List Token) :=
  s.lines.map LineClause.tokens ++
    (s.parser.words.map wordTokens ++ s.fields.map FieldClause.tokens)

theorem trail_groups : (s.trail.flatMap fun u => [blank, u]) = airyTokens s.groups := by
  simp [trail_eq, groups, airyTokens, List.flatMap_assoc, List.flatMap_map,
    LineClause.tokens, LineClause.test, LineTest.tokens, LineTest.orTokens, LineValue.tokens,
    wordTokens, FieldClause.tokens, FieldClause.labelTest_tokens, Sign.token, RawText.lexeme,
    RawText.token, Lexeme.token]

/-- The selector with a blank after each comma. -/
def labelTokens : List LabelClause → List Token
  | [] => []
  | c :: cs => c.matching.tokens ++ cs.flatMap fun d => mark .comma :: blank :: d.matching.tokens

def selectorTokens : List Token :=
  mark .lBrace :: (labelTokens s.labels ++ [mark .rBrace])

theorem lex_commas (cs : List LabelClause) (rest : Text) :
    lex (Text.join ", ".toList (cs.map LabelClause.text) ++ rest) =
      labelTokens cs ++ lex rest := by
  have hmore : ∀ ds : List LabelClause,
      lex (ds.flatMap (fun d => ", ".toList ++ d.text) ++ rest) =
        (ds.flatMap fun d => mark .comma :: blank :: d.matching.tokens) ++ lex rest := by
    intro ds
    induction ds with
    | nil => rfl
    | cons d ds ih =>
      have hc := Token.lex_bracket (k := .comma) (by decide)
        (' ' :: (d.text ++ (ds.flatMap (fun d => ", ".toList ++ d.text) ++ rest)))
      rw [d.lex_blank_clause, ih] at hc
      simpa [mark, Kind.symbol] using hc
  cases cs with
  | nil => rfl
  | cons c cs =>
    rw [List.map_cons, Token.join_cons, List.flatMap_map, List.append_assoc, c.lex_clause, hmore,
      labelTokens, List.append_assoc]

theorem lex_selector (rest : Text) :
    lex (s.selectorText ++ rest) = s.selectorTokens ++ lex rest := by
  have hopen := Token.lex_bracket (k := .lBrace) (by decide)
    (Text.join ", ".toList (s.labels.map LabelClause.text) ++ ("\x7d".toList ++ rest))
  have hclose : lex ("\x7d".toList ++ rest) = mark .rBrace :: lex rest :=
    Token.lex_bracket (k := .rBrace) (by decide) rest
  rw [lex_commas, hclose] at hopen
  rw [selectorText, List.append_assoc, List.append_assoc]
  exact hopen.trans (by simp [selectorTokens])

/-- All tokens of the query. -/
theorem lex_text : lex s.text = s.selectorTokens ++ airyTokens s.groups := by
  rw [text_trail, lex_selector, Token.lex_trail s.trail_whole, trail_groups]

theorem significant_printed {ts : List Token} (h : Printed ts) : Token.significant ts = ts :=
  List.filter_eq_self.mpr fun t ht => by simp [Token.whole_significant (h t ht)]

theorem significant_labels (cs : List LabelClause) :
    Token.significant (labelTokens cs) =
      commaTokens Matching.tokens (cs.map LabelClause.matching) := by
  have hm : ∀ c : LabelClause, Token.significant c.matching.tokens = c.matching.tokens :=
    fun c => significant_printed (matching_printed c.matching)
  have hmore : ∀ ds : List LabelClause,
      Token.significant (ds.flatMap fun d => mark .comma :: blank :: d.matching.tokens) =
        ds.flatMap fun d => mark .comma :: d.matching.tokens := by
    intro ds
    induction ds with
    | nil => rfl
    | cons d ds ih =>
      rw [List.flatMap_cons, Tree.significant_append, ih, Token.significant_cons rfl, blank,
        Token.significant_blank, hm]
      rfl
  cases cs with
  | nil => rfl
  | cons c cs =>
    rw [labelTokens, Tree.significant_append, hm, hmore, List.map_cons, commaTokens,
      List.flatMap_map]

theorem significant_selector :
    Token.significant s.selectorTokens = s.sentence.selectorTokens := by
  rw [selectorTokens, Token.significant_cons rfl, Tree.significant_append, significant_labels]
  rfl

theorem significant_text : Token.significant (lex s.text) = s.sentence.tokens := by
  rw [lex_text, Tree.significant_append, significant_selector, ← trail_groups,
    Token.significant_trail s.trail_whole]
  rfl

end DrilldownSource

end LogQuery
