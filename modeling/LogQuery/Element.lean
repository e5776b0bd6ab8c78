import LogQuery.Span
import LogQuery.Tree.Parse

/-! Elements: what a tree looks like without blanks, comments and bare punctuation. -/
namespace LogQuery

inductive Element where
  | mk (kind : Kind) (span : Span) (children : List Element)
  deriving Repr

namespace Element

def kind : Element → Kind
  | mk k _ _ => k

def span : Element → Span
  | mk _ s _ => s

def children : Element → List Element
  | mk _ _ cs => cs

end Element

namespace Tree

mutual

/-- The element of a tree whose text begins at an offset. -/
def elementAt (start : Nat) : Tree → Element
  | leaf k t => .mk k ⟨start, start + t.bytes⟩ []
  | node k cs => .mk k ⟨start, start + bytesAll cs⟩ (elementsAt start cs)

def elementsAt (start : Nat) : List Tree → List Element
  | [] => []
  | t :: ts =>
    let more := elementsAt (start + t.bytes) ts
    if t.kind.isNamed then t.elementAt start :: more else more

end

def element (t : Tree) : Element := t.elementAt 0

end Tree

def rootElement (query : Text) : Element := (parse query).element

end LogQuery
