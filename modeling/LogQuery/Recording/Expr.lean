import LogQuery.Recording.Metric

/-! Recording expressions, and the query as a whole. -/
namespace LogQuery.Recording

open Grammar (wordAt atKind atAny operator? maxLevels)

/-- A number with an optional sign. -/
def literal : Recording Unit :=
  node .metricExpr (node .literalExpr do
    when (atAny [.add, .sub]) bump
    bump)

/-- Parentheses keep the sort of the expression inside. -/
def parentheses (inner : Recording (Option (Nat × Kind))) : Recording Kind :=
  nodeBy do
    bump
    let x ← inner
    when (fun _ => x.isNone) missing
    expect .rParen
    return (x.map Prod.snd).getD .metricExpr

/-- What the tokens ahead begin, with the sort of expression that it is. -/
def operand (limit : Nat) (inner : Recording (Option (Nat × Kind))) :
    List Token → Option (Recording Kind)
  | [] => none
  | t :: more =>
    match t.kind with
    | .lBrace =>
      some do
        logExpr limit
        return .logExpr
    | .lParen => some (parentheses inner)
    | .number =>
      some do
        literal
        return .metricExpr
    | .add | .sub =>
      if atKind .number more then
        some do
          literal
          return .metricExpr
      else none
    | .identifier =>
      (call? limit inner t.text).map fun call => do
        node .metricExpr call
        return .metricExpr
    | _ => none

def boolModifier : Recording Unit :=
  when (wordAt 0 .bool) (node .boolModifier (bumpWord .bool))

def binaryJoin : List Token → Option Join
  | [] => none
  | t :: _ => (operator? t).map fun (k, left, right) =>
    ⟨do bumpAs k; boolModifier, left, right⟩

/-- A node around one that is completed and nothing else. -/
def enclose (c : Nat) (k : Kind) : Recording Nat := do
  let m ← precede c
  complete m k

/-- Completes a binary expression, which is a metric expression whatever its operands are. -/
def closeBinary (m : Nat) : Recording (Nat × Kind) := do
  let bin ← complete m .binOpExpr
  let metric ← enclose bin .metricExpr
  let c ← enclose metric .expr
  return (c, .metricExpr)

/-- Expressions whose operators bind at least as strongly as the second argument. -/
def expr : Nat → Nat → Recording (Option (Nat × Kind))
  | 0, _ => stuck
  | limit + 1, least =>
    nested <| chain (attempt .expr (operand limit (expr limit 0))) binaryJoin
      (fun right => orMissing (expr limit right)) closeBinary least

/-- One expression, then an error node around all that is left. The levels that are entered are
fewer than the limit. -/
def root : Recording Unit :=
  node .logQl do
    let x ← expr (maxLevels + 1) 0
    when (fun ts => x.isNone && ts.isEmpty) missing
    skipUntil []

end LogQuery.Recording
