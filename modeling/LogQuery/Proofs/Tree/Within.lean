import LogQuery.Proofs.Element.Located
import LogQuery.Proofs.Lossless

/-! Trees that stand below others, and between which tokens they stand. The elements that a walk
gives are the elements of such trees. -/
namespace LogQuery

/-- Blanks and comments are not listed. -/
theorem Kind.isNamed_of_trivia {k : Kind} (h : k.isTrivia = true) : k.isNamed = false := by
  cases k <;> first | rfl | cases h

namespace Tree

variable {cs ds : List Tree} {before after before' after' : List Token} {u : Tree} {k : Kind}

/-- Among some trees or below them, a tree stands behind some tokens and ahead of others. -/
inductive Within : List Tree → List Token → Tree → List Token → Prop
  | head (c : Tree) (cs : List Tree) : Within (c :: cs) [] c (leavesAll cs)
  | inside (k : Kind) (cs : List Tree) {ds : List Tree} {before after : List Token} {u : Tree}
    (h : Within ds before u after) : Within (node k ds :: cs) before u (after ++ leavesAll cs)
  | tail (c : Tree) {cs : List Tree} {before after : List Token} {u : Tree}
    (h : Within cs before u after) : Within (c :: cs) (c.leaves ++ before) u after

theorem within_leaves (h : Within cs before u after) :
    leavesAll cs = before ++ u.leaves ++ after := by
  induction h with
  | head c cs => simp [leavesAll]
  | inside k cs h ih => simp [leavesAll, leaves, ih]
  | tail c h ih => simp [leavesAll, ih]

theorem within_append_left (h : Within cs before u after) (ds : List Tree) :
    Within (cs ++ ds) before u (after ++ leavesAll ds) := by
  induction h with
  | head c cs =>
    rw [← leavesAll_append]
    exact .head c (cs ++ ds)
  | inside k cs h ih =>
    rw [List.append_assoc, ← leavesAll_append]
    exact .inside k (cs ++ ds) h
  | tail c h ih => exact .tail c ih

/-- What stands in two lists of trees stands in one of them. -/
theorem within_append (h : Within (cs ++ ds) before u after) :
    (∃ after', Within cs before u after' ∧ after = after' ++ leavesAll ds) ∨
      ∃ before', Within ds before' u after ∧ before = leavesAll cs ++ before' := by
  induction cs generalizing before after with
  | nil => exact Or.inr ⟨before, h, rfl⟩
  | cons c cs ih =>
    rw [List.cons_append] at h
    cases h with
    | head => exact Or.inl ⟨leavesAll cs, .head _ cs, leavesAll_append cs ds⟩
    | inside k _ h =>
      refine Or.inl ⟨_, .inside k cs h, ?_⟩
      rw [leavesAll_append, List.append_assoc]
    | tail _ h =>
      rcases ih h with ⟨after', hu, rfl⟩ | ⟨before', hu, rfl⟩
      · exact Or.inl ⟨after', .tail c hu, rfl⟩
      · refine Or.inr ⟨before', hu, ?_⟩
        rw [leavesAll, List.append_assoc]

/-- Below a node that stands among trees. -/
theorem within_trans (h : Within cs before (node k ds) after) (h' : Within ds before' u after') :
    Within cs (before ++ before') u (after' ++ after) := by
  generalize ht : node k ds = t at h
  induction h with
  | head c cs =>
    subst ht
    exact .inside k cs h'
  | inside l cs h ih =>
    rw [← List.append_assoc]
    exact .inside l cs (ih ht)
  | tail c h ih =>
    rw [List.append_assoc]
    exact .tail c (ih ht)

/-- What stands in one of some trees stands among them. -/
theorem within_mem {c : Tree} (hc : c ∈ cs) (h : Within [c] before u after) :
    ∃ before after, Within cs before u after := by
  induction hc with
  | head cs => exact ⟨_, _, within_append_left h cs⟩
  | tail d _ ih =>
    obtain ⟨_, _, hw⟩ := ih
    exact ⟨_, _, .tail d hw⟩

/-- There is no node among leaves. -/
theorem not_within_tokens {ts : List Token} :
    ¬ Within (ts.map ofToken) before (node k ds) after := by
  intro h
  induction ts generalizing before with
  | nil => cases h
  | cons t ts ih =>
    rw [List.map_cons, ofToken] at h
    cases h with
    | tail _ h => exact ih h

/-- The kinds of what stands below some trees are among theirs. -/
theorem within_kinds_mem (h : Within cs before u after) (hk : k ∈ u.kinds) : k ∈ kindsAll cs := by
  induction h with
  | head c cs => exact List.mem_append_left _ hk
  | inside l cs h ih => exact List.mem_append_left _ (.tail l (ih hk))
  | tail c h ih => exact List.mem_append_right _ (ih hk)

theorem within_kinds (h : Within cs before u after) : u.kind ∈ kindsAll cs :=
  within_kinds_mem h (by cases u <;> exact .head _)

mutual

/-- A leaf is one of the trees or a child of a node there. -/
theorem leaf_within_tree {l : Token} : (t : Tree) → l ∈ t.leaves → t = leaf l.kind l.text ∨
    ∃ before k ds after, Within [t] before (node k ds) after ∧ leaf l.kind l.text ∈ ds
  | leaf k x, h => by
    obtain rfl := List.mem_singleton.mp h
    exact Or.inl rfl
  | node k cs, h => by
    rcases leaf_within cs h with hm | ⟨before, l, ds, after, hw, hm⟩
    · exact Or.inr ⟨[], k, cs, [], .head _ [], hm⟩
    · exact Or.inr ⟨before, l, ds, _, .inside k [] hw, hm⟩

theorem leaf_within {l : Token} : (cs : List Tree) → l ∈ leavesAll cs → leaf l.kind l.text ∈ cs ∨
    ∃ before k ds after, Within cs before (node k ds) after ∧ leaf l.kind l.text ∈ ds
  | [], h => by cases h
  | c :: cs, h => by
    rw [leavesAll, List.mem_append] at h
    rcases h with h | h
    · rcases leaf_within_tree c h with rfl | ⟨before, k, ds, after, hw, hm⟩
      · exact Or.inl (.head _)
      · exact Or.inr ⟨before, k, ds, _, within_append_left hw cs, hm⟩
    · rcases leaf_within cs h with hm | ⟨before, k, ds, after, hw, hm⟩
      · exact Or.inl (.tail c hm)
      · exact Or.inr ⟨_, k, ds, after, .tail c hw, hm⟩

end

end Tree

open LogQuery.Tree (Within)

variable {query : Text} {before after : List Token} {u : Tree} {e f : Element} {k : Kind}
  {ks : List Kind} {keep : Kind → Bool}

namespace Element

theorem leaves_bytes (t : Tree) : (Token.spelled t.leaves).bytes = t.bytes := by
  rw [Token.spelled, ← Tree.text_leaves, Tree.bytes_text]

mutual

/-- A walk gives elements of trees that stand at or below a tree. -/
theorem walk_within : (t : Tree) → (start : Nat) → e ∈ (t.elementAt start).walk keep →
    ∃ before u after, Within [t] before u after ∧ keep u.kind = true ∧
      e = u.elementAt (start + (Token.spelled before).bytes)
  | .leaf k x, start, h => by
    simp only [Tree.elementAt, walk, walkAll, List.append_nil] at h
    split at h
    · next hk =>
      obtain rfl := List.mem_singleton.mp h
      exact ⟨[], _, [], .head _ [], hk, rfl⟩
    · cases h
  | .node k cs, start, h => by
    simp only [Tree.elementAt, walk, List.mem_append] at h
    rcases h with h | h
    · split at h
      · next hk =>
        obtain rfl := List.mem_singleton.mp h
        exact ⟨[], _, [], .head _ [], hk, rfl⟩
      · cases h
    · obtain ⟨before, u, after, hu, hk, he⟩ := walkAll_within cs start h
      exact ⟨before, u, _, .inside k [] hu, hk, he⟩

theorem walkAll_within : (cs : List Tree) → (start : Nat) →
    e ∈ walkAll keep (Tree.elementsAt start cs) →
    ∃ before u after, Within cs before u after ∧ keep u.kind = true ∧
      e = u.elementAt (start + (Token.spelled before).bytes)
  | [], _, h => by cases h
  | c :: cs, start, h => by
    have hcs : e ∈ walkAll keep (Tree.elementsAt (start + c.bytes) cs) →
        ∃ before u after, Within (c :: cs) before u after ∧ keep u.kind = true ∧
          e = u.elementAt (start + (Token.spelled before).bytes) := by
      intro h
      obtain ⟨before, u, after, hu, hk, he⟩ := walkAll_within cs _ h
      refine ⟨_, u, after, .tail c hu, hk, ?_⟩
      have hb := leaves_bytes c
      rw [he, Token.spelled_append, Text.bytes_append, hb, Nat.add_assoc]
    rw [Tree.elementsAt] at h
    split at h
    · rw [walkAll, List.mem_append] at h
      rcases h with h | h
      · obtain ⟨before, u, after, hu, hk, he⟩ := walk_within c start h
        exact ⟨before, u, _, Tree.within_append_left hu cs, hk, he⟩
      · exact hcs h
    · exact hcs h

end

theorem elementAt_span (t : Tree) (start : Nat) :
    (t.elementAt start).span = ⟨start, start + t.bytes⟩ := by
  cases t <;> rfl

theorem elementAt_kind (t : Tree) (start : Nat) : (t.elementAt start).kind = t.kind := by
  cases t <;> rfl

/-- What a walk gives lies between the ends of the tree. -/
theorem walk_span (t : Tree) (start : Nat) (h : e ∈ (t.elementAt start).walk keep) :
    start ≤ e.span.start ∧ e.span.stop ≤ start + t.bytes := by
  obtain ⟨before, u, after, hu, -, rfl⟩ := walk_within t start h
  have hl : t.leaves = before ++ u.leaves ++ after := by
    simpa [Tree.leavesAll] using Tree.within_leaves hu
  have hb := congrArg (fun ts => (Token.spelled ts).bytes) hl
  simp only [Token.spelled_append, Text.bytes_append, leaves_bytes] at hb
  rw [elementAt_span]
  simp only
  omega

theorem walkAll_span (cs : List Tree) (start : Nat)
    (h : e ∈ walkAll keep (Tree.elementsAt start cs)) : start ≤ e.span.start := by
  obtain ⟨before, u, after, -, -, rfl⟩ := walkAll_within cs start h
  rw [elementAt_span]
  exact Nat.le_add_right _ _

section Split

variable (want : Kind → Bool)

mutual

/-- A walk around an element that another walk gives: first what ends before it or holds it, then
what is in it, then what begins behind it. -/
theorem walk_split : (t : Tree) → (start : Nat) → e ∈ (t.elementAt start).walk keep →
    ∃ front back, (t.elementAt start).walk want = front ++ e.walk want ++ back ∧
      (∀ a ∈ front, a.span.stop ≤ e.span.start ∨ e ∈ walkAll keep a.children) ∧
      ∀ b ∈ back, e.span.stop ≤ b.span.start
  | .leaf k x, start, h => by
    simp only [Tree.elementAt, walk, walkAll, List.append_nil] at h
    split at h
    · obtain rfl := List.mem_singleton.mp h
      exact ⟨[], [], by simp [Tree.elementAt], by simp, by simp⟩
    · cases h
  | .node k cs, start, h => by
    rw [Tree.elementAt, walk, List.mem_append] at h
    rcases h with h | h
    · split at h
      · obtain rfl := List.mem_singleton.mp h
        exact ⟨[], [], by simp [Tree.elementAt], by simp, by simp⟩
      · cases h
    · obtain ⟨front, back, hw, hf, hb⟩ := walkAll_split cs start h
      rw [Tree.elementAt, walk, hw]
      refine ⟨_ ++ front, back, by simp only [List.append_assoc]; rfl, ?_, hb⟩
      intro a ha
      rcases List.mem_append.mp ha with ha | ha
      · split at ha
        · obtain rfl := List.mem_singleton.mp ha
          exact Or.inr h
        · cases ha
      · exact hf a ha

theorem walkAll_split : (cs : List Tree) → (start : Nat) →
    e ∈ walkAll keep (Tree.elementsAt start cs) →
    ∃ front back, walkAll want (Tree.elementsAt start cs) = front ++ e.walk want ++ back ∧
      (∀ a ∈ front, a.span.stop ≤ e.span.start ∨ e ∈ walkAll keep a.children) ∧
      ∀ b ∈ back, e.span.stop ≤ b.span.start
  | [], _, h => by cases h
  | c :: cs, start, h => by
    rw [Tree.elementsAt] at h ⊢
    split at h
    · next hc =>
      rw [if_pos hc, walkAll]
      rw [walkAll, List.mem_append] at h
      rcases h with h | h
      · have hspan := (walk_span c start h).2
        obtain ⟨front, back, hw, hf, hb⟩ := walk_split c start h
        rw [hw]
        refine ⟨front, back ++ _, by simp only [List.append_assoc]; rfl, hf, ?_⟩
        intro b hm
        rcases List.mem_append.mp hm with hm | hm
        · exact hb b hm
        · exact hspan.trans (walkAll_span cs _ hm)
      · have hspan := walkAll_span cs _ h
        obtain ⟨front, back, hw, hf, hb⟩ := walkAll_split cs _ h
        rw [hw]
        refine ⟨_ ++ front, back, by simp only [List.append_assoc]; rfl, ?_, hb⟩
        intro a hm
        rcases List.mem_append.mp hm with hm | hm
        · exact Or.inl ((walk_span c start hm).2.trans hspan)
        · exact hf a hm
    · next hc =>
      rw [if_neg hc]
      exact walkAll_split cs _ h

end

end Split

theorem walk_self (h : keep e.kind = true) : e.walk keep = e :: walkAll keep e.children := by
  cases e with
  | mk k s cs =>
    have hk : keep k = true := h
    simp [walk, hk, children]

theorem mem_walk_self (h : keep e.kind = true) : e ∈ e.walk keep := by
  rw [walk_self h]
  exact .head _

theorem mem_walkAll {es : List Element} (he : e ∈ es) (h : f ∈ e.walk keep) :
    f ∈ walkAll keep es := by
  induction he with
  | head es => exact List.mem_append_left _ h
  | tail d _ ih => exact List.mem_append_right _ ih

theorem mem_walk_child {s : Span} {es : List Element} (h : f ∈ walkAll keep es) :
    f ∈ (mk k s es).walk keep := List.mem_append_right _ h

mutual

theorem outermost_walk : (e : Element) → f ∈ e.outermost k → f ∈ e.walk fun l => l = k
  | mk l s cs, h => by
    rw [outermost] at h
    split at h
    · next hl =>
      obtain rfl := List.mem_singleton.mp h
      exact mem_walk_self (decide_eq_true hl)
    · exact mem_walk_child (outermostAll_walk cs h)

theorem outermostAll_walk : (es : List Element) → f ∈ outermostAll k es →
    f ∈ walkAll (fun l => l = k) es
  | [], h => by cases h
  | e :: es, h => by
    rw [outermostAll, List.mem_append] at h
    rw [walkAll, List.mem_append]
    exact h.imp (outermost_walk e) (outermostAll_walk es)

end

theorem first_walk (h : e.first? k = some f) : f ∈ e.walk fun l => l = k :=
  outermost_walk e (List.mem_of_mem_head? h)

theorem child_walk (h : e.child? k = some f) : f ∈ e.walk fun l => l = k := by
  cases e with
  | mk l s cs =>
    have hf : f ∈ cs := List.mem_of_find?_eq_some h
    have hk : decide (f.kind = k) = true := by simpa [child?] using List.find?_some h
    exact mem_walk_child (mem_walkAll hf (mem_walk_self hk))

mutual

theorem walk_kind : (e : Element) → f ∈ e.walk keep → keep f.kind = true
  | mk k s cs, h => by
    rw [walk, List.mem_append] at h
    rcases h with h | h
    · split at h
      · next hk =>
        obtain rfl := List.mem_singleton.mp h
        exact hk
      · cases h
    · exact walkAll_kind cs h

theorem walkAll_kind : (es : List Element) → f ∈ walkAll keep es → keep f.kind = true
  | [], h => by cases h
  | e :: es, h => by
    rw [walkAll, List.mem_append] at h
    exact h.elim (walk_kind e) (walkAll_kind es)

end

theorem first_kind (h : e.first? k = some f) : f.kind = k :=
  of_decide_eq_true (walk_kind e (first_walk h))

theorem child_kind (h : e.child? k = some f) : f.kind = k :=
  of_decide_eq_true (walk_kind e (child_walk h))

/-- The first child of a left-most leaf is of none of the kinds. -/
theorem leftLeaf_walk (e : Element) (he : ks.contains e.kind = true) (h : e.leftLeaf? ks = some f) :
    f ∈ e.walk ks.contains ∧ ∃ c, f.children.head? = some c ∧ ks.contains c.kind = false := by
  fun_induction leftLeaf? ks e with
  | case1 => cases h
  | case2 k s c cs hc ih =>
    obtain ⟨hw, hf⟩ := ih hc h
    exact ⟨mem_walk_child (mem_walkAll (.head _) hw), hf⟩
  | case3 k s c cs hc =>
    obtain rfl := Option.some.inj h
    exact ⟨mem_walk_self he, c, rfl, by simpa using hc⟩

mutual

theorem leftLeaves_walk : (e : Element) → f ∈ e.leftLeaves ks →
    f ∈ e.walk ks.contains ∧ ∃ c, f.children.head? = some c ∧ ks.contains c.kind = false
  | mk k s cs, h => by
    rw [leftLeaves] at h
    split at h
    · next leaf hl =>
      obtain rfl := List.mem_singleton.mp h
      split at hl
      · next hk => exact leftLeaf_walk _ hk hl
      · cases hl
    · obtain ⟨hw, hf⟩ := leftLeavesAll_walk cs h
      exact ⟨mem_walk_child hw, hf⟩

theorem leftLeavesAll_walk : (es : List Element) → f ∈ leftLeavesAll ks es →
    f ∈ walkAll ks.contains es ∧ ∃ c, f.children.head? = some c ∧ ks.contains c.kind = false
  | [], h => by cases h
  | e :: es, h => by
    rw [leftLeavesAll, List.mem_append] at h
    rw [walkAll]
    rcases h with h | h
    · obtain ⟨hw, hf⟩ := leftLeaves_walk e h
      exact ⟨List.mem_append_left _ hw, hf⟩
    · obtain ⟨hw, hf⟩ := leftLeavesAll_walk es h
      exact ⟨List.mem_append_right _ hw, hf⟩

end

/-- A left-most leaf of one kind does not begin with an element of that kind. -/
theorem leftLeaves_kind (h : f ∈ e.leftLeaves [k]) :
    f ∈ (e.walk fun l => l = k) ∧ f.children.head?.map kind ≠ some k := by
  obtain ⟨hw, c, hc, hk⟩ := leftLeaves_walk e h
  have hkeep : [k].contains = fun l => decide (l = k) := by
    funext l
    simp
  rw [hkeep] at hw hk
  refine ⟨hw, ?_⟩
  rw [hc]
  exact fun h => of_decide_eq_false hk (Option.some.inj h)

end Element

theorem parse_children (query : Text) : parse query = .node .logQl (parse query).children := by
  obtain ⟨cs, hcs⟩ := parse_root query
  rw [hcs]
  rfl

theorem parse_leaves (h : Within (parse query).children before u after) :
    (parse query).leaves = before ++ u.leaves ++ after := by
  rw [parse_children, Tree.leaves, Tree.within_leaves h]

theorem leaf_within_root {l : Token} (h : Within (parse query).children before u after)
    (hl : l ∈ u.leaves) : l ∈ (parse query).leaves := by
  rw [parse_leaves h]
  simp [hl]

/-- A tree below the root, at the text between the tokens around it. -/
theorem within_at (h : Within (parse query).children before u after) :
    Element.At query (Token.spelled before) u
      (u.elementAt (Token.spelled before).bytes) := by
  have hq : query = Token.spelled before ++ u.text ++ Token.spelled after := by
    conv_lhs => rw [← parse_text query, parse_children query]
    rw [Tree.text, Tree.textAll_leaves, Tree.within_leaves h, Tree.text_leaves u]
    simp [Token.spelled]
  exact Element.at_of_eq hq

theorem root_children (query : Text) :
    (rootElement query).children = Tree.elementsAt 0 (parse query).children := by
  rw [rootElement, parse_children]
  rfl

/-- A walk of a query that passes over its root. -/
theorem root_walk (hroot : keep .logQl = false) (query : Text) :
    (rootElement query).walk keep = Element.walkAll keep (rootElement query).children := by
  have hskip : ¬ keep .logQl = true := by simp [hroot]
  rw [rootElement, parse_children, Tree.element, Tree.elementAt, Element.walk, if_neg hskip,
    List.nil_append]
  rfl

theorem walk_parse (hroot : keep .logQl = false) (h : e ∈ (rootElement query).walk keep) :
    ∃ before u after, Within (parse query).children before u after ∧ keep u.kind = true ∧
      e = u.elementAt (Token.spelled before).bytes := by
  rw [root_walk hroot, root_children] at h
  obtain ⟨before, u, after, hu, hk, he⟩ := Element.walkAll_within _ _ h
  exact ⟨before, u, after, hu, hk, by simpa using he⟩

end LogQuery
