import LogQuery.Grammar.Pipeline

/-! Calls that make samples: aggregations over ranges and over vectors. -/
namespace LogQuery.Grammar

def range : Rule := node .range <| seq [bump, expect .duration, expect .rBracket]

def offset : Rule := node .offsetExpr <| seq [bumpWord .offset, expect .duration]

/-- A name in the parentheses of a conversion, or a name alone. -/
def unwrapped : Rule := fun ts =>
  let conversion :=
    match ts with
    | t :: ⟨.lParen, _⟩ :: _ =>
      if t.kind = .identifier then Keyword.ofText? Keyword.conversions t.text else none
    | _ => none
  match conversion with
  | some w =>
    seq [node .convOp (bumpWord w), bump, expect .identifier, expect .rParen] ts
  | none => expect .identifier ts

def unwrap (levels : Nat) : Rule :=
  node .unwrapExpr <| seq [
    bump,
    bumpWord .unwrap,
    unwrapped,
    many (fun ts => kindAt 0 ts = .pipe && atLabelFilter 1 ts)
      (andThen bump (labelFilter levels 0))]

/-- The logs of a range aggregation. The range may stand before or after the pipeline. -/
def logRange (levels : Nat) : Rule :=
  node .logRangeExpr <| seq [
    either (fun ts => kindAt 0 ts = .lParen && kindAt 1 ts = .lBrace)
      (seq [bump, selector, when atStage (pipeline levels), expect .rParen])
      (either (atKind .lBrace) selector missing),
    when (atKind .lBracket) range,
    when atStage (pipeline levels),
    when (fun ts => kindAt 0 ts = .pipe && wordAt 1 .unwrap ts) (unwrap levels),
    when (atKind .lBracket) range,
    when (wordAt 0 .offset) offset]

def atGrouping : Look := fun ts =>
  (wordAt 0 .groupBy ts || wordAt 0 .groupWithout ts) && kindAt 1 ts = .lParen

def grouping : Rule :=
  node .grouping <| seq [
    either (wordAt 0 .groupBy) (bumpWord .groupBy) (bumpWord .groupWithout),
    bump,
    when (atKind .identifier) (node .labels (commaList bump)),
    expect .rParen]

/-- Arguments in parentheses. Without the opening one there are none. -/
def arguments (inside : Rule) : Rule :=
  either (atKind .lParen) (seq [bump, inside, expect .rParen]) missing

/-- A number and a comma before the other argument. -/
def parameter : Rule :=
  when (fun ts => kindAt 0 ts = .number && kindAt 1 ts = .comma) (andThen bump bump)

def rangeAggregation (levels : Nat) (w : Keyword) : Rule :=
  node .rangeAggregationExpr <| seq [
    node .rangeOp (bumpWord w),
    arguments (andThen parameter (logRange levels)),
    when atGrouping grouping]

def vectorAggregation (inner : Rule) (w : Keyword) : Rule :=
  node .vectorAggregationExpr <| seq [
    node .vectorOp (bumpWord w),
    when atGrouping grouping,
    arguments (andThen parameter (orMissing .expr inner)),
    when atGrouping grouping]

def vectorLiteral : Rule :=
  node .vectorExpr <| seq [bumpWord .vector, arguments (expect .number)]

/-- The call that a name opens, where it opens one. -/
def call? (levels : Nat) (inner : Rule) (name : Text) : Option Rule :=
  match Keyword.ofText? Keyword.rangeOps name with
  | some w => some (rangeAggregation levels w)
  | none =>
    match Keyword.ofText? Keyword.vectorOps name with
    | some w => some (vectorAggregation inner w)
    | none => if name = Keyword.vector.text then some vectorLiteral else none

end LogQuery.Grammar
