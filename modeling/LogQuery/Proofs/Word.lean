import LogQuery.Proofs.Structure

/-! The words of a query: keywords are leaves of its tree, and each is an element of its own. -/
namespace LogQuery

open LogQuery.Tree (Within leavesAll)

variable {query : Text} {before after : List Token} {cs : List Tree} {k : Kind} {w : Keyword}
  {u : Tree} {keep : Kind → Bool} {ls ms : List Token}

namespace Tree

mutual

/-- A leaf stands below a tree, between the leaves around it. -/
theorem within_of_leaf {front back : List Token} {l : Token} : (t : Tree) →
    t.leaves = front ++ l :: back → Within [t] front (leaf l.kind l.text) back
  | leaf k x, h => by
    rcases front with _ | ⟨m, front⟩
    · obtain ⟨rfl, rfl⟩ := List.cons.inj h
      exact .head _ []
    · have hl := congrArg List.length h
      simp [leaves] at hl
  | node k cs, h => by
    have hw := Within.inside k [] (within_of_leaves cs h)
    rwa [leavesAll, List.append_nil] at hw

theorem within_of_leaves {front back : List Token} {l : Token} : (cs : List Tree) →
    leavesAll cs = front ++ l :: back → Within cs front (leaf l.kind l.text) back
  | [], h => by
    have hl := congrArg List.length h
    simp [leavesAll] at hl
  | c :: cs, h => by
    rw [leavesAll] at h
    rcases List.append_eq_append_iff.mp h with ⟨middle, rfl, hcs⟩ | ⟨middle, hc, hm⟩
    · exact .tail c (within_of_leaves cs hcs)
    · cases middle with
      | nil =>
        rw [List.nil_append] at hm
        rw [List.append_nil] at hc
        have hcs : leavesAll cs = [] ++ l :: back := hm.symm
        have hw := Within.tail c (within_of_leaves cs hcs)
        rwa [hc, List.append_nil] at hw
      | cons m middle =>
        obtain ⟨rfl, rfl⟩ := List.cons.inj hm
        have hw := within_append_left (within_of_leaf c hc) cs
        exact hw

end

mutual

theorem kinds_within_tree : (t : Tree) → k ∈ t.kinds →
    ∃ before u after, Within [t] before u after ∧ u.kind = k
  | leaf l x, h => by
    obtain rfl := List.mem_singleton.mp h
    exact ⟨[], _, [], .head _ [], rfl⟩
  | node l cs, h => by
    rcases List.mem_cons.mp h with rfl | h
    · exact ⟨[], _, [], .head _ [], rfl⟩
    · obtain ⟨before, u, after, hw, hu⟩ := kinds_within cs h
      exact ⟨before, u, _, .inside l [] hw, hu⟩

/-- A kind that is found below some trees is the kind of a tree there. -/
theorem kinds_within : (cs : List Tree) → k ∈ kindsAll cs →
    ∃ before u after, Within cs before u after ∧ u.kind = k
  | [], h => by cases h
  | c :: cs, h => by
    rcases List.mem_append.mp h with h | h
    · obtain ⟨before, u, after, hw, hu⟩ := kinds_within_tree c h
      exact ⟨before, u, _, within_append_left hw cs, hu⟩
    · obtain ⟨before, u, after, hw, hu⟩ := kinds_within cs h
      exact ⟨_, u, after, .tail c hw, hu⟩

end

end Tree

namespace Element

/-- What stands below some trees is given by a walk, if nodes above it are listed. -/
theorem mem_walk_within (keep : Kind → Bool) (h : Within cs before u after)
    (hu : u.kind.isNamed = true) (hk : keep u.kind = true)
    (hn : ∀ before k ds after, Within cs before (.node k ds) after → k.isNamed = true)
    (start : Nat) :
    u.elementAt (start + (Token.spelled before).bytes) ∈
      walkAll keep (Tree.elementsAt start cs) := by
  induction h generalizing start with
  | head c cs =>
    rw [Tree.elementsAt, if_pos hu, walkAll]
    refine List.mem_append_left _ ?_
    have hself : keep (c.elementAt start).kind = true := by
      cases c <;> exact hk
    exact mem_walk_self hself
  | @inside k cs ds before after u h ih =>
    have hin := ih hu hk (fun _ _ _ _ hw => hn _ _ _ _ (.inside k cs hw)) start
    have hnode : (Tree.node k ds).kind.isNamed = true := hn _ _ _ _ (.head _ cs)
    rw [Tree.elementsAt, if_pos hnode, walkAll]
    exact List.mem_append_left _ (mem_walk_child hin)
  | @tail c cs before after u h ih =>
    have hin := ih hu hk (fun _ _ _ _ hw => hn _ _ _ _ (.tail c hw)) (start + c.bytes)
    rw [Token.spelled_append, Text.bytes_append, leaves_bytes, ← Nat.add_assoc]
    rw [Tree.elementsAt]
    split
    · exact List.mem_append_right _ hin
    · exact hin

end Element

/-- A node of a query has a kind of nodes. -/
theorem within_node (h : Within (parse query).children before (.node k cs) after) :
    k.isNode = true := by
  obtain ⟨ahead, ds, behind, hf⟩ := parse_filled h
  exact (stripped_sites query ahead k ds behind hf.origin).node

theorem node_named (h : k.isNode = true) : k.isNamed = true :=
  (by decide : ∀ k ∈ Kind.nodes, k.isNamed = true) k (List.contains_iff_mem.mp h)

theorem within_word (h : Within (parse query).children before u after) (hu : u.kind = .keyword w) :
    ∃ x, u = .leaf (.keyword w) x := by
  cases u with
  | leaf l x =>
    obtain rfl : l = .keyword w := hu
    exact ⟨x, rfl⟩
  | node l cs =>
    obtain rfl : l = .keyword w := hu
    have hn := within_node h
    cases w <;> exact absurd hn (by decide)

/-- Below the root, what stands in the tree of a query is one of the elements of its kind. -/
theorem elements_within (h : Within (parse query).children before u after) (hu : u.kind = k)
    (hk : k.isNamed = true) :
    u.elementAt (Token.spelled before).bytes ∈ elements query (some [k]) := by
  have hm := Element.mem_walk_within (fun l => l = k) h (hu ▸ hk) (decide_eq_true hu)
    (fun _ _ _ _ hw => node_named (within_node hw)) 0
  rw [Nat.zero_add] at hm
  rw [elements_walk, rootElement, parse_children]
  exact Element.mem_walk_child hm

/-- An element that is a word has the text that spells it. -/
theorem word_text {e : Element} (hroot : keep .logQl = false)
    (he : e ∈ (rootElement query).walk keep) (hk : e.kind = .keyword w) :
    e.span.text query = w.text := by
  obtain ⟨before, u, after, hw, -, rfl⟩ := walk_parse hroot he
  rw [Element.elementAt_kind] at hk
  obtain ⟨x, rfl⟩ := within_word hw hk
  rw [Element.at_text (within_at hw)]
  exact parse_keyword (leaf_within_root hw (List.mem_singleton_self _)) rfl

theorem trim_word (w : Keyword) : Text.trim w.text = w.text := by
  cases w <;> rfl

/-- No white space stands around the word of a parser stage. -/
theorem parserStage_untrimmed (query : Text) :
    parserStage? query =
      (elements query (some [.keyword .json, .keyword .logfmt])).head?.map
        (·.span.text query) := by
  refine Option.map_congr fun e he => ?_
  have hm := List.mem_of_mem_head? he
  have hk := Element.walk_kind _ hm
  simp only [Option.all_some, List.contains_iff_mem, List.mem_cons, List.not_mem_nil,
    or_false] at hk
  obtain ⟨w, hw⟩ : ∃ w : Keyword, e.kind = .keyword w := by
    rcases hk with hk | hk <;> exact ⟨_, hk⟩
  rw [word_text (by decide) hm hw, trim_word]

/-- Some leaf is the word. -/
def Said (w : Keyword) (ls : List Token) : Prop := ∃ l ∈ ls, l.kind = .keyword w

/-- A query has an element that is a word just if a leaf of its tree is. -/
theorem hasElement_word (query : Text) (w : Keyword) :
    hasElement query (.keyword w) = true ↔ Said w (parse query).leaves := by
  have hn : Kind.isNamed (.keyword w) = true := rfl
  rw [hasElement, hn, Bool.true_and, Tree.holds, List.contains_iff_mem, parse_children, Tree.kinds,
    Tree.leaves]
  constructor
  · intro h
    rcases List.mem_cons.mp h with h | h
    · cases h
    · obtain ⟨before, u, after, hw, hu⟩ := Tree.kinds_within _ h
      obtain ⟨x, rfl⟩ := within_word hw hu
      rw [Tree.within_leaves hw]
      exact ⟨⟨.keyword w, x⟩, by simp [Tree.leaves], rfl⟩
  · rintro ⟨l, hl, hk⟩
    obtain ⟨front, back, he⟩ := List.append_of_mem hl
    have hw := Tree.within_kinds (Tree.within_of_leaves _ he)
    rw [Tree.kind, hk] at hw
    exact .tail _ hw

theorem leaf_bytes (query : Text) {l : Token} (h : l ∈ (parse query).leaves) :
    0 < l.text.bytes := by
  obtain ⟨c, x, hx⟩ := List.exists_cons_of_ne_nil (leaf_ne_nil h)
  have hc := c.utf8Size_pos
  rw [hx, Text.bytes]
  omega

/-- A token that ends by the end of some others, all of them in a row, is one of them. -/
theorem mem_of_ends {l : Token} (h : ls ++ ms = before ++ [l] ++ after) (hl : 0 < l.text.bytes)
    (hend : (Token.spelled (before ++ [l])).bytes ≤ (Token.spelled ls).bytes) : l ∈ ls := by
  have hfront : before ++ [l] <+: ls ++ ms := ⟨after, h.symm⟩
  rcases List.prefix_or_prefix_of_prefix hfront (List.prefix_append ls ms) with hp | hp
  · exact hp.subset (by simp)
  · rcases List.prefix_concat_iff.mp hp with rfl | ⟨rest, hrest⟩
    · simp
    · -- The token would begin behind the others.
      exfalso
      have hone : Token.spelled [l] = l.text := List.append_nil _
      rw [← hrest, Token.spelled_append, Token.spelled_append, Text.bytes_append,
        Text.bytes_append, hone] at hend
      omega

/-- Whether some element of the query that is the word ends at an offset or before it. -/
def wordEndsBy (query : Text) (w : Keyword) (stop : Nat) : Bool :=
  (elements query (some [.keyword w])).any fun e => e.span.stop ≤ stop

theorem wordEndsBy_iff (h : (parse query).leaves = ls ++ ms) :
    wordEndsBy query w (Token.spelled ls).bytes = true ↔ Said w ls := by
  rw [wordEndsBy, elements_walk, List.any_eq_true]
  constructor
  · rintro ⟨e, he, hstop⟩
    obtain ⟨before, u, after, hw, hu, rfl⟩ := walk_parse rfl he
    obtain ⟨x, rfl⟩ := within_word hw (of_decide_eq_true hu)
    set l : Token := ⟨.keyword w, x⟩
    have hleaves : ls ++ ms = before ++ [l] ++ after := h ▸ parse_leaves hw
    have hl : l ∈ (parse query).leaves := by
      rw [h, hleaves]
      simp
    have hend : (Token.spelled (before ++ [l])).bytes ≤ (Token.spelled ls).bytes := by
      have hstop := of_decide_eq_true hstop
      rw [Element.elementAt_span] at hstop
      rw [Token.spelled_append, Text.bytes_append]
      exact (congrArg _ (Element.leaves_bytes (.leaf (.keyword w) x))).trans_le hstop
    exact ⟨l, mem_of_ends hleaves (leaf_bytes query hl) hend, rfl⟩
  · rintro ⟨l, hl, hk⟩
    obtain ⟨front, back, rfl⟩ := List.append_of_mem hl
    have hchildren : leavesAll (parse query).children = front ++ l :: (back ++ ms) := by
      rw [parse_children, Tree.leaves] at h
      rw [h, List.append_assoc, List.cons_append]
    have hw := Tree.within_of_leaves _ hchildren
    have hm := elements_within hw (show (Tree.leaf l.kind l.text).kind = _ from hk) rfl
    rw [elements_walk] at hm
    refine ⟨_, hm, ?_⟩
    have hl : Token.spelled (l :: back) = l.text ++ Token.spelled back := rfl
    rw [Element.elementAt_span, Token.spelled_append, hl]
    simp [Tree.bytes, Text.bytes_append]

end LogQuery
