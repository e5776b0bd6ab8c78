import LogQuery.Grammar.Expr
import LogQuery.Token.Lexer

/-! The tree of a query: blanks and comments are put back into the tree of its other tokens. -/
namespace LogQuery

namespace Tree

mutual

/-- Fills a tree from the tokens of the query, and gives the tokens after it. -/
def fill : Tree → List Token → Tree × List Token
  | leaf k t, ts => (leaf k t, ts.drop 1)
  | node k cs, ts =>
    let (filled, rest) := fillAll cs ts
    (node k filled, rest)

/-- Trivia ahead of a child stays outside of it. -/
def fillAll : List Tree → List Token → List Tree × List Token
  | [], ts => ([], ts)
  | c :: cs, ts =>
    let trivia := ts.takeWhile Token.isTrivia
    let (filled, rest) := c.fill (ts.dropWhile Token.isTrivia)
    let (more, rest) := fillAll cs rest
    (trivia.map ofToken ++ filled :: more, rest)

end

/-- The root also takes the trivia at the end of the query. -/
def withTrivia (ts : List Token) : Tree → Tree
  | leaf k t => leaf k t
  | node k cs =>
    let (filled, rest) := fillAll cs ts
    node k (filled ++ rest.map ofToken)

end Tree

def parse (query : Text) : Tree :=
  (Grammar.queryTree Grammar.maxLevels (Token.significant (Token.lex query))).withTrivia
    (Token.lex query)

end LogQuery
