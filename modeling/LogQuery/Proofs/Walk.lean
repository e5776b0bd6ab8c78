import LogQuery.Proofs.Node.LeftLeaf
import LogQuery.Proofs.Tree.Spot

/-! Walks through any tree and through the elements of a query: what is listed, what is outermost,
what is left-most. -/
namespace LogQuery

namespace Element

variable {keep : Kind → Bool} {f : Element}

/-- What is done to the items of a list in turn, with the results in a row. -/
theorem flatMap_of_cons {α β : Type} {f : α → List β} {all : List α → List β} (hnil : all [] = [])
    (hcons : ∀ x xs, all (x :: xs) = f x ++ all xs) (xs : List α) : all xs = xs.flatMap f := by
  induction xs with
  | nil => exact hnil
  | cons x xs ih => rw [hcons, ih, List.flatMap_cons]

theorem walk_children (keep : Kind → Bool) (e : Element) :
    e.walk keep = (if keep e.kind then [e] else []) ++ (Node.children e).flatMap (walk keep) := by
  cases e with
  | mk k s cs =>
    rw [walk, flatMap_of_cons (walkAll.eq_1 keep) (walkAll.eq_2 keep)]
    rfl

theorem outermost_children (k : Kind) (e : Element) :
    e.outermost k = if Node.kind e = k then [e] else (Node.children e).flatMap (outermost k) := by
  cases e with
  | mk l s cs =>
    rw [outermost, flatMap_of_cons (outermostAll.eq_1 k) (outermostAll.eq_2 k)]
    rfl

theorem leftLeaf_node (kinds : List Kind) (e : Element) :
    e.leftLeaf? kinds = Node.leftLeaf? kinds e := by
  fun_induction leftLeaf? kinds e with
  | case1 k s => exact (Node.leftLeaf_nil rfl).symm
  | case2 k s c cs hc ih =>
    have hcons := @Node.leftLeaf_cons _ _ kinds (mk k s (c :: cs)) c cs rfl
    rw [ih, hcons]
    exact (if_pos hc).symm
  | case3 k s c cs hc =>
    have hcons := @Node.leftLeaf_cons _ _ kinds (mk k s (c :: cs)) c cs rfl
    rw [hcons]
    exact (if_neg hc).symm

theorem leftLeaves_children (kinds : List Kind) (e : Element) :
    e.leftLeaves kinds =
      match if Node.isOf kinds e then Node.leftLeaf? kinds e else none with
      | some leaf => [leaf]
      | none => (Node.children e).flatMap (leftLeaves kinds) := by
  rw [← leftLeaf_node]
  cases e with
  | mk k s cs =>
    rw [leftLeaves, flatMap_of_cons (leftLeavesAll.eq_1 kinds) (leftLeavesAll.eq_2 kinds)]
    rfl

/-- A walk through elements gives those of the recursive listing that pass the test. -/
theorem walk_preorder (keep : Kind → Bool) (e : Element) :
    e.walk keep = (Node.preorder e).filter fun e => keep e.kind := by
  induction e using Node.node_induction with
  | step e ih =>
    rw [walk_children, List.flatMap_congr ih, Node.preorder, List.filter_cons,
      List.filter_flatMap]
    cases keep e.kind <;> rfl

theorem outermost_node (k : Kind) (e : Element) :
    e.outermost k = Node.outermost (fun e => Node.kind e = k) e := by
  induction e using Node.node_induction with
  | step e ih =>
    rw [outermost_children, List.flatMap_congr ih, Node.outermost]
    simp only [decide_eq_true_eq]

theorem leftLeaves_node (kinds : List Kind) (e : Element) :
    e.leftLeaves kinds = Node.leftLeaves kinds e := by
  rw [Node.leftLeaves, Node.search_trail]
  induction e using Node.node_induction with
  | step e ih =>
    rw [leftLeaves_children, List.flatMap_congr ih, Node.trail, Node.leftLook]
    cases if Node.isOf kinds e then Node.leftLeaf? kinds e else none <;> rfl

mutual

/-- Below a named tree only named ones are listed. -/
theorem walk_named : (t : Tree) → (start : Nat) → t.kind.isNamed = true →
    f ∈ (t.elementAt start).walk keep → f.kind.isNamed = true
  | .leaf k x, start, hn, h => by
    simp only [Tree.elementAt, walk, walkAll, List.append_nil] at h
    split at h
    · obtain rfl := List.mem_singleton.mp h
      exact hn
    · cases h
  | .node k cs, start, hn, h => by
    rw [Tree.elementAt, walk, List.mem_append] at h
    rcases h with h | h
    · split at h
      · obtain rfl := List.mem_singleton.mp h
        exact hn
      · cases h
    · exact walkAll_named cs start h

theorem walkAll_named : (cs : List Tree) → (start : Nat) →
    f ∈ walkAll keep (Tree.elementsAt start cs) → f.kind.isNamed = true
  | [], _, h => by cases h
  | c :: cs, start, h => by
    rw [Tree.elementsAt] at h
    split at h
    · next hc =>
      rw [walkAll, List.mem_append] at h
      exact h.elim (walk_named c start hc) (walkAll_named cs _)
    · exact walkAll_named cs _ h

end

end Element

namespace Tree

variable {k : Kind}

mutual

theorem spots_none : (t : Tree) → (t.spots k = [] ↔ k ∉ t.kinds)
  | leaf l x => by
    rw [spots, kinds, List.mem_singleton, eq_comm (a := k)]
    by_cases hl : l = k <;> simp [hl]
  | node l cs => by
    rw [spots, kinds, List.append_eq_nil_iff, spotsAll_none cs 0 [], List.mem_cons, not_or,
      eq_comm (a := k)]
    refine and_congr_left fun _ => ?_
    by_cases hl : l = k <;> simp [hl]

theorem spotsAll_none : (cs : List Tree) → (place : Nat) → (ahead : List Token) →
    (spotsAll k place ahead cs = [] ↔ k ∉ kindsAll cs)
  | [], _, _ => by simp [spotsAll, kindsAll]
  | c :: cs, place, ahead => by
    rw [spotsAll, kindsAll, List.append_eq_nil_iff, List.map_eq_nil_iff, spots_none c,
      spotsAll_none cs, List.mem_append, not_or]

end

end Tree

universe u

open Node (Place Position isOf lowest leadsOn places outermostPlaces)

variable {α : Type u} [Node α]

/-- What is listed below a query has a name, and what has a name in its tree is listed. -/
theorem hasElement_iff (query : Text) (k : Kind) :
    hasElement query k = true ↔ elements query (some [k]) ≠ [] := by
  rw [hasElement, Bool.and_eq_true, Tree.holds, List.contains_iff_mem]
  by_cases hk : k.isNamed = true
  · rw [elements_spots query hk, Ne, List.map_eq_nil_iff, Tree.spots_none, not_not]
    exact and_iff_right hk
  · refine iff_of_false (fun h => hk h.1) fun h => ?_
    obtain ⟨e, he⟩ := List.exists_mem_of_ne_nil _ h
    rw [elements_walk] at he
    have hkind : e.kind = k := of_decide_eq_true (Element.walk_kind _ he)
    exact hk (hkind ▸ Element.walk_named (parse query) 0 (by rw [parse_children]; rfl) he)

theorem elements_node_walk (query : Text) (kinds : Option (List Kind)) :
    elements query kinds = Node.walk kinds (rootElement query) := by
  rw [elements, Element.walk_preorder]
  cases kinds with
  | none => simp [Node.walk_all]
  | some kinds => exact (Node.walk_some kinds _).symm

/-- A walk with a stack lists a tree as the recursion does: a node, then what is listed below its
children from left to right. With kinds it is that list without the other kinds. The elements of a
query are such a walk, and one of a kind is listed just if the tree of the query holds that kind,
wherever it stands, and the kind has a name. -/
theorem walk_listed (root : α) (kinds : List Kind) (query : Text) (k : Kind) :
    Node.walk none root = Node.preorder root ∧
      Node.walk (some kinds) root = (Node.preorder root).filter (isOf kinds) ∧
      (∀ wanted, elements query wanted = Node.walk wanted (rootElement query)) ∧
      (hasElement query k = true ↔ elements query (some [k]) ≠ []) :=
  ⟨Node.walk_all root, Node.walk_some kinds root, elements_node_walk query, hasElement_iff query k⟩

theorem isOf_single (k : Kind) : isOf [k] = fun node : α => decide (Node.kind node = k) := by
  funext node
  simp [isOf]

/-- Each outermost node of the kinds that leads on gives the node at the end of its first children
of the kinds, in the order of the nodes. One that does not lead on is looked into instead. So there
is one leaf for each outermost node of the kinds just if all of these lead on, that is, if none of
the ways along first children ends at a node without children. -/
theorem leftLeaves_lowest (kinds : List Kind) (root : α) (query : Text) :
    Node.leftLeaves kinds root =
        (outermostPlaces (leadsOn kinds) root).map (fun p => lowest kinds p.node) ∧
      (Node.leftLeaves kinds root =
          (outermostPlaces (isOf kinds) root).map (fun p => lowest kinds p.node) ↔
        ∀ p ∈ outermostPlaces (isOf kinds) root, Node.children (lowest kinds p.node) ≠ []) ∧
      leftLeaves query kinds = Node.leftLeaves kinds (rootElement query) := by
  have hmap : ∀ stops : α → Bool,
      (outermostPlaces stops root).map (fun p => lowest kinds p.node) =
        (Node.outermost stops root).map (lowest kinds) := by
    intro stops
    rw [← Node.outermost_places, List.map_map]
    rfl
  refine ⟨?_, ?_, Element.leftLeaves_node kinds _⟩
  · rw [hmap, Node.leftLeaves_outermost]
  · rw [hmap, Node.leftLeaves_each, ← Node.outermost_places]
    exact List.forall_mem_map

/-- A name and its value, both without children. -/
def oneMatcher : Text := "\x7ba=\"b\"\x7d".toList

/-- The one identifier leads nowhere, so that no leaf is given for it. -/
theorem leftLeaves_not_lowest :
    leftLeaves oneMatcher [.identifier] ≠
      (outermostPlaces (isOf [.identifier]) (rootElement oneMatcher)).map fun p =>
        lowest [.identifier] p.node := by
  have hnone : (leftLeaves oneMatcher [.identifier]).isEmpty = true := by decide +kernel
  have hsome : (outermost oneMatcher .identifier).isEmpty = false := by decide +kernel
  intro h
  rw [h, List.isEmpty_iff, List.map_eq_nil_iff, ← List.map_eq_nil_iff (f := Place.node),
    Node.outermost_places, isOf_single, ← Element.outermost_node] at hnone
  rw [outermost, hnone] at hsome
  cases hsome

end LogQuery
