import LogQuery.Node

/-! Walks through trees of any sort. They keep the nodes still to be looked at on a stack. -/
namespace LogQuery.Node

universe u

/-- What a search makes of a node: what it finds there, and whether it looks at the children. -/
structure Look (α : Type u) where
  finds : Option α
  enters : Bool

variable {α : Type u}

/-- Lays nodes on a stack one by one. The last of them comes to lie on top. -/
def push (stack nodes : List α) : List α := nodes.foldl (fun stack node => node :: stack) stack

theorem push_reverse (stack nodes : List α) : push stack nodes.reverse = nodes ++ stack := by
  simp [push]

variable [Node α]

/-- The children that a search lays on its stack, the last one first. -/
def behind (look : α → Look α) (node : α) : List α :=
  if (look node).enters then (children node).reverse else []

/-- The nodes on a stack and below it get fewer with each that is taken. -/
theorem preorder_push (look : α → Look α) (node : α) (stack : List α) :
    ((push stack (behind look node)).flatMap preorder).length <
      ((node :: stack).flatMap preorder).length := by
  rw [behind, List.flatMap_cons, preorder]
  split
  · rw [push_reverse, List.flatMap_append]
    simp only [List.cons_append, List.length_cons]
    omega
  · simp only [push, List.foldl_nil, List.length_append, List.length_cons]
    omega

/-- Takes the topmost node from the stack and lays its children there, until nothing is left. -/
def searchFrom (look : α → Look α) (found : List α) : List α → List α
  | [] => found
  | node :: stack =>
    searchFrom look (found ++ (look node).finds.toList) (push stack (behind look node))
termination_by stack => (stack.flatMap preorder).length
decreasing_by exact preorder_push look node stack

def search (look : α → Look α) (root : α) : List α := searchFrom look [] [root]

/-- The nodes of some kinds, or all of them. No node hides its children. -/
def walk (kinds : Option (List Kind)) (root : α) : List α :=
  search (fun node => ⟨if kinds.all (isOf · node) then some node else none, true⟩) root

/-- The positions of a kind. A node of the kind is not looked into. -/
def positions (k : Kind) (node : α) : List (Position α) :=
  if kind node = k then [.of node] else (children node).flatMap (positions k)
termination_by ends.wrap node

/-- Follows first children of the kinds. The last of them is the leaf, if it has children. -/
def leftLeaf? (kinds : List Kind) (node : α) : Option α :=
  match _h : children node with
  | [] => none
  | first :: _ => if isOf kinds first then leftLeaf? kinds first else some node
termination_by ends.wrap node
decreasing_by
  show first ∈ children node
  rw [_h]
  exact .head _

/-- A leaf is given in place of the node that it is found from. Without a leaf the search goes on
below that node. -/
def leftLook (kinds : List Kind) (node : α) : Look α :=
  match if isOf kinds node then leftLeaf? kinds node else none with
  | some leaf => ⟨some leaf, false⟩
  | none => ⟨none, true⟩

def leftLeaves (kinds : List Kind) (root : α) : List α := search (leftLook kinds) root

end LogQuery.Node
