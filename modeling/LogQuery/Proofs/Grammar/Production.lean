import Mathlib.Computability.RegularExpressions
import LogQuery.Grammar.Expr

/-! What each kind of node may hold: one regular expression over the kinds of its children. -/
namespace LogQuery.Grammar

abbrev Shape := RegularExpression Kind

namespace Shape

def one (k : Kind) : Shape := .char k

def word (w : Keyword) : Shape := .char (.keyword w)

def oneOf (ks : List Kind) : Shape := ks.foldr (fun k s => .char k + s) 0

def wordOf (ws : List Keyword) : Shape := oneOf (ws.map .keyword)

def opt (s : Shape) : Shape := 1 + s

def inOrder (ss : List Shape) : Shape := ss.foldr (· * ·) 1

def some (s : Shape) : Shape := s * s.star

def list (k : Kind) : Shape := one k * (one .comma * one k).star

def parens (s : Shape) : Shape := inOrder [one .lParen, s, one .rParen]

theorem mem_oneOf {ks : List Kind} {w : List Kind} :
    w ∈ (oneOf ks).matches' ↔ ∃ k ∈ ks, w = [k] := by
  induction ks with
  | nil => simp [oneOf, Language.notMem_zero]
  | cons k ks ih =>
    rw [oneOf, List.foldr_cons, RegularExpression.matches'_add, Language.mem_add, ← oneOf, ih]
    simp only [RegularExpression.matches'_char, List.mem_cons, exists_eq_or_imp]
    rfl

theorem inOrder_append (ss rs : List Shape) :
    (inOrder (ss ++ rs)).matches' = (inOrder ss).matches' * (inOrder rs).matches' := by
  induction ss with
  | nil => exact (one_mul _).symm
  | cons s ss ih =>
    calc
      (inOrder (s :: (ss ++ rs))).matches' = s.matches' * (inOrder (ss ++ rs)).matches' := rfl
      _ = s.matches' * ((inOrder ss).matches' * (inOrder rs).matches') := by rw [ih]
      _ = (inOrder (s :: ss)).matches' * (inOrder rs).matches' := (mul_assoc _ _ _).symm

end Shape

open Shape

/-- Signs that begin a line filter. -/
def lineOps : List Kind := [.pipeExact, .pipeMatch, .pipePattern, .neq, .nre, .npa]

/-- What a line is searched for: a string, or an address range. -/
def valueShape : Shape :=
  one .string + inOrder [one .filterOp, one .lParen, one .string, one .rParen]

/-- A label, a sign and an amount. Signs of matchers stand here too: a look at the sign alone does
not tell a matcher from a comparison. -/
def amountShape (k : Kind) : Shape :=
  inOrder [one .identifier, oneOf (comparisonOps ++ matcherOps), one k]

def stageKinds : List Kind :=
  [.labelParser, .jsonExpressionParser, .logfmtParser, .logfmtExpressionParser, .labelFilter,
    .lineFormatExpr, .labelFormatExpr, .dropLabelsExpr, .keepLabelsExpr, .decolorizeExpr]

def binaryOps : List Kind :=
  [.keyword .or, .keyword .and, .keyword .unlessMatched, .eql, .neq, .gtr, .gte, .lss, .lte, .add,
    .sub, .mul, .div, .mod, .pow]

/-- A number and a comma before the argument of a call. -/
def parameterShape : Shape := opt (inOrder [one .number, one .comma])

/-- The children of a node of each kind. No word of children makes an error node right. -/
def production : Kind → Shape
  | .logQl => one .expr
  | .expr => oneOf [.logExpr, .metricExpr]
  | .logExpr => inOrder [one .selector, opt (one .pipelineExpr)] + parens (one .expr)
  | .metricExpr =>
    oneOf [.rangeAggregationExpr, .vectorAggregationExpr, .binOpExpr, .literalExpr, .vectorExpr]
      + parens (one .expr)
  | .selector => inOrder [one .lBrace, opt (one .matchers), opt (one .comma), one .rBrace]
  | .matchers => list .matcher
  | .matcher => inOrder [one .identifier, oneOf matcherOps, one .string]
  | .pipelineExpr => some (one .pipelineStage)
  | .pipelineStage => one .lineFilters + inOrder [one .pipe, oneOf stageKinds]
  | .lineFilters => some (one .lineFilter)
  | .lineFilter => inOrder [one .filter, valueShape, opt (one .orFilter)]
  | .orFilter => inOrder [word .or, valueShape, opt (one .orFilter)]
  | .filter => oneOf lineOps
  | .filterOp => word .ip
  | .labelFilter =>
    oneOf [.matcher, .numberFilter, .unitFilter, .ipLabelFilter] + parens (one .labelFilter)
      + inOrder [one .labelFilter, opt (oneOf [.keyword .and, .keyword .or, .comma]),
        one .labelFilter]
  | .numberFilter => amountShape .number
  | .durationFilter => amountShape .duration
  | .bytesFilter => amountShape .bytes
  | .unitFilter => oneOf [.durationFilter, .bytesFilter]
  | .ipLabelFilter =>
    inOrder [one .identifier, oneOf [.eq, .neq], word .ip, one .lParen, one .string, one .rParen]
  | .labelParser =>
    wordOf [.json, .logfmt, .unpack] + inOrder [wordOf [.regexp, .pattern], one .string]
  | .jsonExpressionParser => inOrder [word .json, one .labelExtractionExpressionList]
  | .logfmtParser => inOrder [word .logfmt, some (one .parserFlag)]
  | .logfmtExpressionParser =>
    inOrder [word .logfmt, (one .parserFlag).star, one .labelExtractionExpressionList]
  | .labelExtractionExpressionList => list .labelExtractionExpression
  | .labelExtractionExpression => inOrder [one .identifier, opt (inOrder [one .eq, one .string])]
  | .lineFormatExpr => inOrder [word .lineFormat, one .string]
  | .labelFormatExpr => inOrder [word .labelFormat, one .labelsFormat]
  | .labelsFormat => list .labelFormatMatcher
  | .labelFormatMatcher => inOrder [one .identifier, one .eq, oneOf [.string, .identifier]]
  | .dropLabelsExpr => inOrder [word .drop, one .dropLabels]
  | .dropLabels => list .dropLabel
  | .dropLabel => oneOf [.matcher, .identifier]
  | .keepLabelsExpr => inOrder [word .keep, one .keepLabels]
  | .keepLabels => list .keepLabel
  | .keepLabel => oneOf [.matcher, .identifier]
  | .decolorizeExpr => word .decolorize
  | .rangeAggregationExpr =>
    inOrder [one .rangeOp, one .lParen, parameterShape, one .logRangeExpr, one .rParen,
      opt (one .grouping)]
  | .rangeOp => wordOf Keyword.rangeOps
  | .logRangeExpr =>
    inOrder [
      one .selector + inOrder [one .lParen, one .selector, opt (one .pipelineExpr), one .rParen],
      opt (one .range), opt (one .pipelineExpr), opt (one .unwrapExpr), opt (one .range),
      opt (one .offsetExpr)]
  | .range => inOrder [one .lBracket, one .duration, one .rBracket]
  | .offsetExpr => inOrder [word .offset, one .duration]
  | .unwrapExpr =>
    inOrder [one .pipe, word .unwrap,
      one .identifier + inOrder [one .convOp, one .lParen, one .identifier, one .rParen],
      (inOrder [one .pipe, one .labelFilter]).star]
  | .convOp => wordOf Keyword.conversions
  | .vectorAggregationExpr =>
    inOrder [one .vectorOp, opt (one .grouping), one .lParen, parameterShape, one .expr,
      one .rParen, opt (one .grouping)]
  | .vectorOp => wordOf Keyword.vectorOps
  | .grouping =>
    inOrder [wordOf [.groupBy, .groupWithout], one .lParen, opt (one .labels), one .rParen]
  | .labels => list .identifier
  | .binOpExpr => inOrder [one .expr, oneOf binaryOps, opt (one .boolModifier), one .expr]
  | .boolModifier => word .bool
  | .literalExpr => inOrder [opt (oneOf [.add, .sub]), one .number]
  | .vectorExpr => inOrder [word .vector, one .lParen, one .number, one .rParen]
  | _ => 0

end LogQuery.Grammar

namespace LogQuery

namespace Tree

/-- The kinds of the children of a node, blanks and comments left out. -/
def word (cs : List Tree) : List Kind := (cs.map kind).filter fun k => !k.isTrivia

/-- Every node holds what the production of its kind allows. -/
inductive Conforms : Tree → Prop
  | leaf (k : Kind) (t : Text) : Conforms (leaf k t)
  | node (k : Kind) (cs : List Tree) (hw : word cs ∈ (Grammar.production k).matches')
      (hcs : ∀ c ∈ cs, c.Conforms) : Conforms (node k cs)

theorem word_append (cs ds : List Tree) : word (cs ++ ds) = word cs ++ word ds := by
  simp [word]

end Tree
end LogQuery
