import LogQuery.Grammar.Metric

/-! Expressions: operands joined by binary operators, and the query as a whole. -/
namespace LogQuery.Grammar

/-- A number with an optional sign. -/
def literal : Rule :=
  node .metricExpr <| node .literalExpr <| andThen (when (atAny [.add, .sub]) bump) bump

/-- Parentheses keep the sort of the expression inside. -/
def parenthesesKind : List Tree → Kind
  | _ :: .node .expr (.node .logExpr _ :: _) :: _ => .logExpr
  | _ => .metricExpr

def parentheses (inner : Rule) : Rule :=
  nodeBy parenthesesKind <| seq [bump, orMissing .expr inner, expect .rParen]

def operand (levels : Nat) (inner : Rule) : Rule := fun ts =>
  match ts with
  | [] => nothing ts
  | t :: more =>
    match t.kind with
    | .lBrace => node .expr (logExpr levels) ts
    | .lParen => node .expr (parentheses inner) ts
    | .number => node .expr literal ts
    | .add | .sub => when (fun _ => atKind .number more) (node .expr literal) ts
    | .identifier =>
      match call? levels inner t.text with
      | some r => node .expr (node .metricExpr r) ts
      | none => nothing ts
    | _ => nothing ts

/-- Binary operators, the loosest first. Only powers lean to the right. -/
def operator? (t : Token) : Option (Kind × Nat × Nat) :=
  match t.kind with
  | .identifier =>
    if t.spells .or then some (.keyword .or, 1, 2)
    else if t.spells .and then some (.keyword .and, 3, 4)
    else if t.spells .unlessMatched then some (.keyword .unlessMatched, 3, 4)
    else none
  | .eql | .neq | .gtr | .gte | .lss | .lte => some (t.kind, 5, 6)
  | .add | .sub => some (t.kind, 7, 8)
  | .mul | .div | .mod => some (t.kind, 9, 10)
  | .pow => some (t.kind, 12, 11)
  | _ => none

def boolModifier : Rule := when (wordAt 0 .bool) (node .boolModifier (bumpWord .bool))

def binaryJoin : List Token → Option Join
  | [] => none
  | t :: _ =>
    (operator? t).map fun (k, left, right) => ⟨andThen (bumpAs k) boolModifier, left, right⟩

/-- A binary expression is a metric expression whatever its operands are. -/
def binary (parts : List Tree) : Tree :=
  .node .expr [.node .metricExpr [.node .binOpExpr parts]]

/-- Expressions whose operators bind at least as strongly as the second argument. -/
def expr : Nat → Nat → Rule
  | 0, _ => refuse
  | levels + 1, least =>
    deepen <| chain (operand levels (expr levels 0)) binaryJoin binary
      (fun right => orMissing .expr (expr levels right)) least

/-- How deep rules may nest. -/
def maxLevels : Nat := 256

/-- One expression, then an error node around all that is left. -/
def contents (levels : Nat) : Rule :=
  andThen (fun ts =>
      let f := expr levels 0 ts
      if f.rest.isEmpty then f.orMissing .expr else f)
    (skipUntil [])

def queryTree (levels : Nat) (ts : List Token) : Tree := .node .logQl (contents levels ts).trees

end LogQuery.Grammar
