import LogQuery.Grammar.LineFilter
import LogQuery.Grammar.LabelFilter

/-! Pipelines: stages that follow a stream selector. -/
namespace LogQuery.Grammar

/-- A name, or a name with the string it is taken from. -/
def labelExtraction : Rule :=
  node .labelExtractionExpression <| seq [bump, when (atKind .eq) (andThen bump (expect .string))]

def labelExtractions : Rule := node .labelExtractionExpressionList (commaList labelExtraction)

def jsonParser : Rule := fun ts =>
  node (if atKind .identifier (ts.drop 1) then .jsonExpressionParser else .labelParser)
    (seq [bumpWord .json, when (atKind .identifier) labelExtractions]) ts

def logfmtKind (afterWord : List Token) : Kind :=
  if atKind .identifier (afterWord.dropWhile fun t => t.kind = .parserFlag) then
    .logfmtExpressionParser
  else if atKind .parserFlag afterWord then .logfmtParser
  else .labelParser

def logfmtParser : Rule := fun ts =>
  node (logfmtKind (ts.drop 1))
    (seq [bumpWord .logfmt, many (atKind .parserFlag) bump,
      when (atKind .identifier) labelExtractions]) ts

/-- A word and the string it takes. -/
def stringStage (k : Kind) (w : Keyword) : Rule := node k <| seq [bumpWord w, expect .string]

/-- A word alone. -/
def bareStage (k : Kind) (w : Keyword) : Rule := node k (bumpWord w)

def labelFormat : Rule :=
  node .labelFormatMatcher <| seq [
    expect .identifier,
    expect .eq,
    either (atKind .string) bump (expect .identifier)]

def labelFormats : Rule :=
  node .labelFormatExpr <| seq [bumpWord .labelFormat, node .labelsFormat (commaList labelFormat)]

/-- A label, or a label with the value it must have. -/
def labelChoice (k : Kind) : Rule :=
  node k <| either (fun ts => kindAt 0 ts = .identifier && matcherOps.contains (kindAt 1 ts))
    matcher (expect .identifier)

def labelChoices (w : Keyword) (stage list item : Kind) : Rule :=
  node stage <| seq [bumpWord w, node list (commaList (labelChoice item))]

def namedStage (w : Keyword) : Rule :=
  match w with
  | .json => jsonParser
  | .logfmt => logfmtParser
  | .regexp | .pattern => stringStage .labelParser w
  | .unpack => bareStage .labelParser w
  | .lineFormat => stringStage .lineFormatExpr w
  | .labelFormat => labelFormats
  | .drop => labelChoices w .dropLabelsExpr .dropLabels .dropLabel
  | .keep => labelChoices w .keepLabelsExpr .keepLabels .keepLabel
  | .decolorize => bareStage .decolorizeExpr w
  | _ => node .error bump

/-- The stage that a name after a bar stands for. Other names are errors. -/
def wordStage : Rule := fun ts =>
  match ts with
  | t :: _ =>
    match Keyword.ofText? Keyword.clauses t.text with
    | some w => namedStage w ts
    | none => node .error bump ts
  | [] => nothing ts

/-- A bar before `unwrap` opens no stage: it belongs to the range around it. -/
def atStage : Look := fun ts => atLineFilter ts || (kindAt 0 ts = .pipe && !wordAt 1 .unwrap ts)

def stage (levels : Nat) : Rule :=
  node .pipelineStage <| either atLineFilter (lineFilters levels) <| seq [
    bump,
    either (atLabelFilter 0) (labelFilter levels 0)
      (either (atKind .identifier) wordStage missing)]

def pipeline (levels : Nat) : Rule := node .pipelineExpr (many atStage (stage levels))

def logExpr (levels : Nat) : Rule :=
  node .logExpr <| seq [selector, when atStage (pipeline levels)]

end LogQuery.Grammar
