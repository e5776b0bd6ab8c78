import LogQuery.Recording

/-! Recording stream selectors and the stages of a pipeline. -/
namespace LogQuery.Recording

open Grammar (kindAt wordAt atKind atAny matcherOps atNextName selectorStops atLineValue
  atLineFilter atOrValue unitKinds atLabelFilter atStage)

variable {α : Type}

/-- A name, an operator and a string. Stray characters before the string stay in the matcher. -/
def matcher : Recording Unit :=
  node .matcher do
    bump
    either (atAny matcherOps) bump missing
    when (atKind .unknown) (node .error (many (atKind .unknown) bump))
    expect .string

/-- Elements separated by commas, as long as a name follows the comma. -/
def commaList (item : Recording Unit) : Recording Unit := do
  item
  many atNextName (do bump; item)

def selector : Recording Unit :=
  node .selector do
    assert (atKind .lBrace)
    bump
    when (atKind .identifier) (node .matchers (commaList matcher))
    optional .comma
    skipUntil selectorStops
    expect .rBrace

/-- A string, or an address range in parentheses. -/
def lineValue : Recording Unit :=
  either (fun ts => wordAt 0 .ip ts && kindAt 1 ts = .lParen)
    (do
      node .filterOp (bumpWord .ip)
      bump
      expect .string
      expect .rParen)
    (expect .string)

def orFilter : Nat → Recording Unit
  | 0 => stuck
  | limit + 1 => do
    let _ ← nested do
      let c ← closed .orFilter do
        bumpWord .or
        lineValue
        when atOrValue (orFilter limit)
      return some (c, ())

def lineFilter (limit : Nat) : Recording Unit :=
  node .lineFilter do
    node .filter bump
    lineValue
    when atOrValue (orFilter limit)

def lineFilters (limit : Nat) : Recording Unit :=
  node .lineFilters (many atLineFilter (lineFilter limit))

def comparison (value k : Kind) : Recording Unit :=
  node k do
    bump
    bump
    expect value

def ipLabelFilter : Recording Unit :=
  node .ipLabelFilter do
    bump
    bump
    bumpWord .ip
    bump
    expect .string
    expect .rParen

def labelComparison : Recording Unit :=
  ahead fun ts =>
    let op := kindAt 1 ts
    let value := kindAt 2 ts
    if (op = .eq || op = .neq) && wordAt 2 .ip ts && kindAt 3 ts = .lParen then ipLabelFilter
    else if matcherOps.contains op && !unitKinds.contains value then matcher
    else
      match value with
      | .duration => node .unitFilter (comparison .duration .durationFilter)
      | .bytes => node .unitFilter (comparison .bytes .bytesFilter)
      | _ => comparison .number .numberFilter

/-- A comparison, or label filters in parentheses. -/
def labelOperand (inner : Recording (Option α)) (ts : List Token) : Option (Recording Unit) :=
  if atKind .lParen ts then
    some do
      bump
      orMissing inner
      expect .rParen
  else if atLabelFilter 0 ts then some labelComparison
  else none

def labelJoin (ts : List Token) : Option Join :=
  if wordAt 0 .or ts && atLabelFilter 1 ts then some ⟨bumpWord .or, 1, 2⟩
  else if wordAt 0 .and ts && atLabelFilter 1 ts then some ⟨bumpWord .and, 3, 4⟩
  else if kindAt 0 ts = .comma && atLabelFilter 1 ts then some ⟨bump, 3, 4⟩
  else if atLabelFilter 0 ts then some ⟨pure (), 3, 4⟩
  else none

/-- Completes the node around two label filters. -/
def closeLabel (m : Nat) : Recording (Nat × Unit) := do
  let c ← complete m .labelFilter
  return (c, ())

/-- Label filters whose joins bind at least as strongly as the second argument. -/
def labelFilter : Nat → Nat → Recording (Option (Nat × Unit))
  | 0, _ => stuck
  | limit + 1, least =>
    nested <| chain (attempt .labelFilter (labelOperand (labelFilter limit 0))) labelJoin
      (fun right => orMissing (labelFilter limit right)) closeLabel least

def labelFilters (limit : Nat) : Recording Unit := do
  let _ ← labelFilter limit 0

/-- A name, or a name with the string it is taken from. -/
def labelExtraction : Recording Unit :=
  node .labelExtractionExpression do
    bump
    when (atKind .eq) (do bump; expect .string)

def labelExtractions : Recording Unit :=
  node .labelExtractionExpressionList (commaList labelExtraction)

def jsonParser : Recording Unit := do
  let _ ← nodeBy do
    bumpWord .json
    either (atKind .identifier)
      (do
        labelExtractions
        return .jsonExpressionParser)
      (return .labelParser)

def logfmtParser : Recording Unit := do
  let _ ← nodeBy do
    bumpWord .logfmt
    ahead fun flags => do
      many (atKind .parserFlag) bump
      either (atKind .identifier)
        (do
          labelExtractions
          return .logfmtExpressionParser)
        (return if atKind .parserFlag flags then .logfmtParser else .labelParser)

/-- A word and the string it takes. -/
def stringStage (k : Kind) (w : Keyword) : Recording Unit :=
  node k do
    bumpWord w
    expect .string

/-- A word alone. -/
def bareStage (k : Kind) (w : Keyword) : Recording Unit := node k (bumpWord w)

def labelFormat : Recording Unit :=
  node .labelFormatMatcher do
    expect .identifier
    expect .eq
    either (atKind .string) bump (expect .identifier)

def labelFormats : Recording Unit :=
  node .labelFormatExpr do
    bumpWord .labelFormat
    node .labelsFormat (commaList labelFormat)

/-- A label, or a label with the value it must have. -/
def labelChoice (k : Kind) : Recording Unit :=
  node k (either (fun ts => kindAt 0 ts = .identifier && matcherOps.contains (kindAt 1 ts))
    matcher (expect .identifier))

def labelChoices (w : Keyword) (stage list item : Kind) : Recording Unit :=
  node stage do
    bumpWord w
    node list (commaList (labelChoice item))

def namedStage (w : Keyword) : Recording Unit :=
  match w with
  | .json => jsonParser
  | .logfmt => logfmtParser
  | .regexp | .pattern => stringStage .labelParser w
  | .unpack => bareStage .labelParser w
  | .lineFormat => stringStage .lineFormatExpr w
  | .labelFormat => labelFormats
  | .drop => labelChoices w .dropLabelsExpr .dropLabels .dropLabel
  | .keep => labelChoices w .keepLabelsExpr .keepLabels .keepLabel
  | .decolorize => bareStage .decolorizeExpr w
  | _ => node .error bump

/-- The stage that a name after a bar stands for. Other names are errors. -/
def wordStage : Recording Unit :=
  ahead fun ts =>
    match ts with
    | t :: _ =>
      match Keyword.ofText? Keyword.clauses t.text with
      | some w => namedStage w
      | none => node .error bump
    | [] => pure ()

def stage (limit : Nat) : Recording Unit :=
  node .pipelineStage (either atLineFilter (lineFilters limit)
    (do
      bump
      either (atLabelFilter 0) (labelFilters limit)
        (either (atKind .identifier) wordStage missing)))

def pipeline (limit : Nat) : Recording Unit :=
  node .pipelineExpr (many atStage (stage limit))

def logExpr (limit : Nat) : Recording Unit :=
  node .logExpr do
    selector
    when atStage (pipeline limit)

end LogQuery.Recording
