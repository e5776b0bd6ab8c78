import LogQuery.Recording.Log

/-! Recording calls that make samples. -/
namespace LogQuery.Recording

open Grammar (kindAt wordAt atKind atLabelFilter atStage atGrouping)

variable {α : Type}

def range : Recording Unit :=
  node .range do
    bump
    expect .duration
    expect .rBracket

def offset : Recording Unit :=
  node .offsetExpr do
    bumpWord .offset
    expect .duration

/-- The conversion that a name before a parenthesis stands for. -/
def conversion? (ts : List Token) : Option Keyword :=
  match ts with
  | t :: ⟨.lParen, _⟩ :: _ =>
    if t.kind = .identifier then Keyword.ofText? Keyword.conversions t.text else none
  | _ => none

/-- A name in the parentheses of a conversion, or a name alone. -/
def unwrapped : Recording Unit :=
  ahead fun ts =>
    match conversion? ts with
    | some w => do
      node .convOp (bumpWord w)
      bump
      expect .identifier
      expect .rParen
    | none => expect .identifier

def unwrap (limit : Nat) : Recording Unit :=
  node .unwrapExpr do
    bump
    bumpWord .unwrap
    unwrapped
    many (fun ts => kindAt 0 ts = .pipe && atLabelFilter 1 ts) (do bump; labelFilters limit)

/-- The logs of a range aggregation. The range may stand before or after the pipeline. -/
def logRange (limit : Nat) : Recording Unit :=
  node .logRangeExpr do
    either (fun ts => kindAt 0 ts = .lParen && kindAt 1 ts = .lBrace)
      (do
        bump
        selector
        when atStage (pipeline limit)
        expect .rParen)
      (either (atKind .lBrace) selector missing)
    when (atKind .lBracket) range
    when atStage (pipeline limit)
    when (fun ts => kindAt 0 ts = .pipe && wordAt 1 .unwrap ts) (unwrap limit)
    when (atKind .lBracket) range
    when (wordAt 0 .offset) offset

def grouping : Recording Unit :=
  node .grouping do
    either (wordAt 0 .groupBy) (bumpWord .groupBy) (bumpWord .groupWithout)
    bump
    when (atKind .identifier) (node .labels (commaList bump))
    expect .rParen

/-- Arguments in parentheses. Without the opening one there are none. -/
def arguments (inside : Recording Unit) : Recording Unit :=
  either (atKind .lParen)
    (do
      bump
      inside
      expect .rParen)
    missing

/-- A number and a comma before the other argument. -/
def parameter : Recording Unit :=
  when (fun ts => kindAt 0 ts = .number && kindAt 1 ts = .comma) (do bump; bump)

def rangeAggregation (limit : Nat) (w : Keyword) : Recording Unit :=
  node .rangeAggregationExpr do
    node .rangeOp (bumpWord w)
    arguments (do parameter; logRange limit)
    when atGrouping grouping

def vectorAggregation (inner : Recording (Option α)) (w : Keyword) : Recording Unit :=
  node .vectorAggregationExpr do
    node .vectorOp (bumpWord w)
    when atGrouping grouping
    arguments (do parameter; orMissing inner)
    when atGrouping grouping

def vectorLiteral : Recording Unit :=
  node .vectorExpr do
    bumpWord .vector
    arguments (expect .number)

/-- The call that a name opens, where it opens one. -/
def call? (limit : Nat) (inner : Recording (Option α)) (name : Text) : Option (Recording Unit) :=
  match Keyword.ofText? Keyword.rangeOps name with
  | some w => some (rangeAggregation limit w)
  | none =>
    match Keyword.ofText? Keyword.vectorOps name with
    | some w => some (vectorAggregation inner w)
    | none => if name = Keyword.vector.text then some vectorLiteral else none

end LogQuery.Recording
