import LogQuery.Element

/-! Nodes of trees of any sort. A walk asks no more of them than their kinds, their spans and their
children. -/
namespace LogQuery

universe u

/-- Values that are nodes of trees. Every way down from child to child ends. -/
class Node (α : Type u) where
  kind : α → Kind
  span : α → Span
  children : α → List α
  ends : WellFounded fun child node : α => child ∈ children node

namespace Node

variable {α : Type u} [Node α]

/-- A node, then what is listed below its children from left to right. -/
def preorder (node : α) : List α := node :: (children node).flatMap preorder
termination_by ends.wrap node

def isOf (kinds : List Kind) (node : α) : Bool := kinds.contains (kind node)

/-- A node with its span and its kind. -/
structure Position (α : Type u) where
  span : Span
  kind : Kind
  node : α

def Position.of (node : α) : Position α := ⟨Node.span node, Node.kind node, node⟩

end Node

theorem Element.sizeOf_child {e c : Element} (h : c ∈ e.children) : sizeOf c < sizeOf e := by
  cases e with
  | mk k s cs =>
    have hc : sizeOf c < sizeOf cs := List.sizeOf_lt_of_mem h
    rw [Element.mk.sizeOf_spec]
    omega

instance : Node Element where
  kind := Element.kind
  span := Element.span
  children := Element.children
  ends := Subrelation.wf Element.sizeOf_child (measure (sizeOf : Element → Nat)).wf

end LogQuery
