import LogQuery.Grammar.Selector

/-! Label filters: comparisons of labels, joined by `or`, `and`, commas or nothing. -/
namespace LogQuery.Grammar

/-- Operators between a label and a number, a duration or a size. -/
def comparisonOps : List Kind := [.eq, .neq, .eql, .gtr, .gte, .lss, .lte]

def unitKinds : List Kind := [.number, .duration, .bytes]

def atLabelFilter (n : Nat) : Look := fun ts =>
  match kindAt n ts with
  | .lParen => true
  | .identifier =>
    matcherOps.contains (kindAt (n + 1) ts) || comparisonOps.contains (kindAt (n + 1) ts)
  | _ => false

def comparison (value : Kind) (k : Kind) : Rule := node k <| seq [bump, bump, expect value]

def ipLabelFilter : Rule :=
  node .ipLabelFilter <| seq [bump, bump, bumpWord .ip, bump, expect .string, expect .rParen]

def labelComparison : Rule := fun ts =>
  let op := kindAt 1 ts
  let value := kindAt 2 ts
  if (op = .eq || op = .neq) && wordAt 2 .ip ts && kindAt 3 ts = .lParen then ipLabelFilter ts
  else if matcherOps.contains op && !unitKinds.contains value then matcher ts
  else match value with
    | .duration => node .unitFilter (comparison .duration .durationFilter) ts
    | .bytes => node .unitFilter (comparison .bytes .bytesFilter) ts
    | _ => comparison .number .numberFilter ts

/-- A comparison, or label filters in parentheses. -/
def labelOperand (inner : Rule) : Rule :=
  either (atKind .lParen)
    (node .labelFilter (seq [bump, orMissing .labelFilter inner, expect .rParen]))
    (when (atLabelFilter 0) (node .labelFilter labelComparison))

def labelJoin (ts : List Token) : Option Join :=
  if wordAt 0 .or ts && atLabelFilter 1 ts then some ⟨bumpWord .or, 1, 2⟩
  else if wordAt 0 .and ts && atLabelFilter 1 ts then some ⟨bumpWord .and, 3, 4⟩
  else if kindAt 0 ts = .comma && atLabelFilter 1 ts then some ⟨bump, 3, 4⟩
  else if atLabelFilter 0 ts then some ⟨nothing, 3, 4⟩
  else none

/-- Label filters whose joins bind at least as strongly as the second argument. -/
def labelFilter : Nat → Nat → Rule
  | 0, _ => refuse
  | levels + 1, least =>
    deepen <| chain (labelOperand (labelFilter levels 0)) labelJoin (.node .labelFilter)
      (fun right => orMissing .labelFilter (labelFilter levels right)) least

end LogQuery.Grammar
