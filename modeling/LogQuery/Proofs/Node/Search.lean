import Mathlib.Data.List.Basic
import LogQuery.Node.Walk

/-! What a search with a stack finds is what a recursion over the tree lists. -/
namespace LogQuery.Node

universe u

variable {α : Type u} [Node α]

theorem node_induction {P : α → Prop} (node : α)
    (step : ∀ node, (∀ child ∈ children node, P child) → P node) : P node :=
  ends.induction node step

/-- What a search finds at a node, then what it finds below the children if it looks at them. -/
def trail (look : α → Look α) (node : α) : List α :=
  (look node).finds.toList ++
    if (look node).enters then (children node).flatMap (trail look) else []
termination_by ends.wrap node

/-- The nodes that pass a test and are below no other that does. -/
def outermost (stops : α → Bool) (node : α) : List α :=
  if stops node then [node] else (children node).flatMap (outermost stops)
termination_by ends.wrap node

theorem trail_push (look : α → Look α) (node : α) (stack : List α) :
    (push stack (behind look node)).flatMap (trail look) =
      (if (look node).enters then (children node).flatMap (trail look) else []) ++
        stack.flatMap (trail look) := by
  rw [behind]
  split
  · rw [push_reverse, List.flatMap_append]
  · rfl

/-- What has been found, followed by what is to be found below the stack, stays the same. -/
theorem searchFrom_trail (look : α → Look α) (found stack : List α) :
    searchFrom look found stack = found ++ stack.flatMap (trail look) := by
  fun_induction searchFrom look found stack with
  | case1 found => simp
  | case2 found node stack ih =>
    rw [ih, trail_push, List.flatMap_cons, trail, List.append_assoc, List.append_assoc]

theorem search_trail (look : α → Look α) (root : α) : search look root = trail look root := by
  simp [search, searchFrom_trail]

/-- A search that looks everywhere finds what a recursion would, test by test. -/
theorem trail_filter (keep : α → Bool) (node : α) :
    trail (fun node => ⟨if keep node then some node else none, true⟩) node =
      (preorder node).filter keep := by
  induction node using node_induction with
  | step node ih =>
    rw [trail, preorder, List.filter_cons, List.filter_flatMap, List.flatMap_congr ih]
    cases keep node <;> rfl

theorem walk_all (root : α) : walk none root = preorder root := by
  rw [walk, search_trail]
  exact (trail_filter (fun _ => true) root).trans (by simp)

theorem walk_some (kinds : List Kind) (root : α) :
    walk (some kinds) root = (preorder root).filter (isOf kinds) := by
  rw [walk, search_trail]
  exact trail_filter (isOf kinds) root

end LogQuery.Node
