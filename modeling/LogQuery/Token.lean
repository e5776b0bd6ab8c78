import LogQuery.Kind

/-! Tokens: a kind and the characters it covers. -/
namespace LogQuery

structure Token where
  kind : Kind
  text : Text
  deriving DecidableEq, Repr

namespace Token

def isTrivia (t : Token) : Bool := t.kind.isTrivia

/-- An identifier spelled as the word. -/
def spells (t : Token) (w : Keyword) : Bool := t.kind = .identifier && t.text = w.text

/-- The tokens that the grammar sees. -/
def significant (ts : List Token) : List Token := ts.filter fun t => !t.isTrivia

end Token
end LogQuery
