import LogQuery.Grammar.Rule

/-! Stream selectors: label matchers between braces. -/
namespace LogQuery.Grammar

def matcherOps : List Kind := [.eq, .neq, .re, .nre]

/-- A name, an operator and a string. Stray characters before the string stay in the matcher. -/
def matcher : Rule :=
  node .matcher <| seq [
    bump,
    either (atAny matcherOps) bump missing,
    when (atKind .unknown) (node .error (many (atKind .unknown) bump)),
    expect .string]

/-- A comma and a name: one more element of a list. -/
def atNextName : Look := fun ts => kindAt 0 ts = .comma && kindAt 1 ts = .identifier

/-- Elements separated by commas, as long as a name follows the comma. -/
def commaList (item : Rule) : Rule := andThen item (many atNextName (andThen bump item))

def selectorStops : List Kind :=
  [.rBrace, .pipe, .pipeExact, .pipeMatch, .pipePattern, .lBracket, .rParen]

def selector : Rule :=
  node .selector <| seq [
    bump,
    when (atKind .identifier) (node .matchers (commaList matcher)),
    optional .comma,
    skipUntil selectorStops,
    expect .rBrace]

end LogQuery.Grammar
