import LogQuery.Grammar.Rule

/-! Line filters: an operator and one or more values joined by `or`. -/
namespace LogQuery.Grammar

def atLineValue (n : Nat) : Look := fun ts => kindAt n ts = .string || wordAt n .ip ts

def atLineFilter : Look := fun ts =>
  match kindAt 0 ts with
  | .pipeExact | .pipeMatch | .pipePattern => true
  | .neq | .nre | .npa => atLineValue 1 ts
  | _ => false

/-- A string, or an address range in parentheses. -/
def lineValue : Rule :=
  either (fun ts => wordAt 0 .ip ts && kindAt 1 ts = .lParen)
    (seq [node .filterOp (bumpWord .ip), bump, expect .string, expect .rParen])
    (expect .string)

def atOrValue : Look := fun ts => wordAt 0 .or ts && atLineValue 1 ts

def orFilter : Nat → Rule
  | 0 => refuse
  | levels + 1 =>
    deepen <| node .orFilter <| seq [bumpWord .or, lineValue, when atOrValue (orFilter levels)]

def lineFilter (levels : Nat) : Rule :=
  node .lineFilter <| seq [node .filter bump, lineValue, when atOrValue (orFilter levels)]

def lineFilters (levels : Nat) : Rule := node .lineFilters (many atLineFilter (lineFilter levels))

end LogQuery.Grammar
