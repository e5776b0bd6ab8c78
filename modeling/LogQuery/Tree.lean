import LogQuery.Token

/-! Trees of nodes over tokens. A tree holds its tokens in the order of the query. -/
namespace LogQuery

inductive Tree where
  | leaf (kind : Kind) (text : Text)
  | node (kind : Kind) (children : List Tree)
  deriving Repr

namespace Tree

def kind : Tree → Kind
  | leaf k _ => k
  | node k _ => k

def children : Tree → List Tree
  | leaf _ _ => []
  | node _ cs => cs

def ofToken (t : Token) : Tree := leaf t.kind t.text

mutual

/-- The leaves in the order of the text. -/
def leaves : Tree → List Token
  | leaf k t => [⟨k, t⟩]
  | node _ cs => leavesAll cs

def leavesAll : List Tree → List Token
  | [] => []
  | t :: ts => t.leaves ++ leavesAll ts

end

mutual

def text : Tree → Text
  | leaf _ t => t
  | node _ cs => textAll cs

def textAll : List Tree → Text
  | [] => []
  | t :: ts => t.text ++ textAll ts

end

mutual

/-- How many bytes the text takes. -/
def bytes : Tree → Nat
  | leaf _ t => t.bytes
  | node _ cs => bytesAll cs

def bytesAll : List Tree → Nat
  | [] => 0
  | t :: ts => t.bytes + bytesAll ts

end

mutual

theorem bytes_text : (t : Tree) → t.text.bytes = t.bytes
  | leaf _ _ => rfl
  | node _ cs => bytes_textAll cs

theorem bytes_textAll : (ts : List Tree) → (textAll ts).bytes = bytesAll ts
  | [] => rfl
  | t :: ts => by
    rw [textAll, Text.bytes_append, bytes_text t, bytes_textAll ts, bytesAll]

end

mutual

/-- The kinds of a tree, a node before what it holds. -/
def kinds : Tree → List Kind
  | leaf k _ => [k]
  | node k cs => k :: kindsAll cs

def kindsAll : List Tree → List Kind
  | [] => []
  | t :: ts => t.kinds ++ kindsAll ts

end

def holds (t : Tree) (k : Kind) : Bool := t.kinds.contains k

end Tree
end LogQuery
