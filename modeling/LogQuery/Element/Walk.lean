import LogQuery.Element

/-! Walks through elements in the order of the text. -/
namespace LogQuery.Element

mutual

/-- An element and all elements below it, if they pass the test. A failed test hides no children. -/
def walk (keep : Kind → Bool) : Element → List Element
  | mk k s cs => (if keep k then [mk k s cs] else []) ++ walkAll keep cs

def walkAll (keep : Kind → Bool) : List Element → List Element
  | [] => []
  | e :: es => e.walk keep ++ walkAll keep es

end

mutual

/-- The outermost elements of a kind. -/
def outermost (kind : Kind) : Element → List Element
  | mk k s cs => if k = kind then [mk k s cs] else outermostAll kind cs

def outermostAll (kind : Kind) : List Element → List Element
  | [] => []
  | e :: es => e.outermost kind ++ outermostAll kind es

end

def first? (e : Element) (kind : Kind) : Option Element := (e.outermost kind).head?

/-- Follows first children of the kinds. The last of them is the leaf, if it has children. -/
def leftLeaf? (kinds : List Kind) : Element → Option Element
  | mk _ _ [] => none
  | mk k s (c :: cs) =>
    if kinds.contains c.kind then c.leftLeaf? kinds else some (mk k s (c :: cs))

mutual

/-- The left-most leaf of each outermost element of the kinds. An element without such a leaf is
searched like any other. -/
def leftLeaves (kinds : List Kind) : Element → List Element
  | mk k s cs =>
    match if kinds.contains k then (mk k s cs).leftLeaf? kinds else none with
    | some leaf => [leaf]
    | none => leftLeavesAll kinds cs

def leftLeavesAll (kinds : List Kind) : List Element → List Element
  | [] => []
  | e :: es => e.leftLeaves kinds ++ leftLeavesAll kinds es

end

def child? (e : Element) (kind : Kind) : Option Element := e.children.find? fun c => c.kind = kind

end LogQuery.Element

namespace LogQuery

/-- The elements of a query, of some kinds or of all. -/
def elements (query : Text) (kinds : Option (List Kind)) : List Element :=
  (rootElement query).walk fun k => kinds.all (·.contains k)

def leftLeaves (query : Text) (kinds : List Kind) : List Element :=
  (rootElement query).leftLeaves kinds

def outermost (query : Text) (kind : Kind) : List Element := (rootElement query).outermost kind

/-- Unnamed kinds are in no query. -/
def hasElement (query : Text) (kind : Kind) : Bool := kind.isNamed && (parse query).holds kind

end LogQuery
