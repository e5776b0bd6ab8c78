import LogQuery.Proofs.Structure

/-! What the matchers of a query hold: a name, at most one string and no selector. -/
namespace LogQuery

namespace Tree

variable {ds : List Tree}

theorem kindsAll_ofToken (ts : List Token) : kindsAll (ts.map ofToken) = ts.map Token.kind := by
  induction ts with
  | nil => rfl
  | cons t ts ih => simp [kindsAll, ofToken, kinds, ih]

mutual

/-- No kind but those of trivia is added. -/
theorem fill_kinds : (t : Tree) → (ts : List Token) → {l : Kind} → l ∈ (t.fill ts).1.kinds →
    l ∈ t.kinds ∨ l.isTrivia = true
  | leaf _ _, _, _, h => Or.inl h
  | node k cs, ts, l, h => by
    rw [fill_node, kinds, List.mem_cons] at h
    rcases h with rfl | h
    · exact Or.inl (.head _)
    · exact (fillAll_kinds cs ts h).imp_left (.tail k)

theorem fillAll_kinds : (cs : List Tree) → (ts : List Token) → {l : Kind} →
    l ∈ kindsAll (fillAll cs ts).1 → l ∈ kindsAll cs ∨ l.isTrivia = true
  | [], _, _, h => by cases h
  | c :: cs, ts, l, h => by
    simp only [fillAll, Grammar.kindsAll_append, kindsAll, List.mem_append, kindsAll_ofToken,
      List.mem_map] at h
    rcases h with ⟨u, hu, rfl⟩ | h | h
    · exact Or.inr (show u.isTrivia = true from List.mem_takeWhile_imp hu)
    · exact (fill_kinds c _ h).imp_left (List.mem_append_left _)
    · exact (fillAll_kinds cs _ h).imp_left (List.mem_append_right _)

end

mutual

/-- Trivia is not listed, so that what is found without it is found with it. -/
theorem outermost_strip (k : Kind) : (t : Tree) → t.strip.outermost k = (t.outermost k).map strip
  | leaf l x => by
    rw [strip, outermost]
    split <;> rfl
  | node l cs => by
    rw [strip, outermost, outermost]
    split
    · rfl
    · exact outermostAll_strip k cs

theorem outermostAll_strip (k : Kind) : (cs : List Tree) →
    outermostAll k (stripAll cs) = (outermostAll k cs).map strip
  | [] => rfl
  | c :: cs => by
    have hc := outermost_strip k c
    have hcs := outermostAll_strip k cs
    rw [stripAll, outermostAll]
    split
    · next ht =>
      cases c with
      | leaf l x =>
        have hn : (leaf l x).kind.isNamed = false := Kind.isNamed_of_trivia ht
        rw [hn, hcs]
        rfl
      | node l ds => cases ht
    · have hk : c.strip.kind = c.kind := by cases c <;> rfl
      rw [outermostAll, hk, hc, hcs, List.map_append]
      split <;> rfl

end

/-- The kinds in a matcher. -/
theorem matcherShape_kinds (h : Grammar.MatcherShape ds) :
    ∀ k ∈ kindsAll ds, k ∈ .identifier :: .string :: .unknown :: .error :: Grammar.matcherOps := by
  have hexpected : ∀ ks c, Grammar.Expected ks c → ∀ k ∈ c.kinds, k ∈ .error :: ks := by
    rintro ks c (⟨k, hk, x, rfl⟩ | rfl) l hl
    · obtain rfl := List.mem_singleton.mp hl
      exact .tail _ hk
    · obtain rfl := List.mem_singleton.mp hl
      exact .head _
  obtain ⟨name, op, stray, value, hm⟩ := h
  intro k hk
  rw [hm.children] at hk
  simp only [kindsAll, Grammar.kindsAll_append, kinds, List.mem_append, List.mem_cons,
    List.not_mem_nil, or_false] at hk
  rcases hk with rfl | hk | hk | hk
  · exact .head _
  · have := hexpected _ _ hm.op k hk
    simp only [List.mem_cons] at this ⊢
    tauto
  · rcases hm.stray with rfl | ⟨us, hus, rfl⟩
    · cases hk
    · simp only [kindsAll, kinds, kindsAll_ofToken, List.append_nil, List.mem_cons,
        List.mem_map] at hk
      rcases hk with rfl | ⟨u, hu, rfl⟩
      · simp
      · simp [hus u hu]
  · have := hexpected _ _ hm.value k hk
    simp only [List.mem_cons, List.not_mem_nil, or_false] at this ⊢
    tauto

theorem outermostAll_ofToken {ts : List Token} {k : Kind} (h : ∀ t ∈ ts, t.kind ≠ k) :
    outermostAll k (ts.map ofToken) = [] := by
  induction ts with
  | nil => rfl
  | cons t ts ih =>
    have ht : (ofToken t).outermost k = [] := if_neg (h t (.head _))
    rw [List.map_cons, outermostAll, ht, ih fun u hu => h u (.tail t hu)]
    split <;> rfl

/-- There is one string in a matcher at most. -/
theorem matcherShape_strings (h : Grammar.MatcherShape ds) :
    (outermostAll .string ds).length ≤ 1 := by
  obtain ⟨name, op, stray, value, hm⟩ := h
  have hop : op.outermost .string = [] := by
    rcases hm.op with ⟨k, hk, x, rfl⟩ | rfl
    · exact if_neg ((by decide : ∀ k ∈ Grammar.matcherOps, k ≠ .string) k hk)
    · rfl
  have hstray : ∀ cs, outermostAll .string (stray ++ cs) = outermostAll .string cs := by
    intro cs
    rcases hm.stray with rfl | ⟨us, hus, rfl⟩
    · rfl
    · have hnone : outermostAll .string (us.map ofToken) = [] :=
        outermostAll_ofToken fun u hu => by simp [hus u hu]
      simp [outermostAll, outermost, hnone]
  have hvalue : (outermostAll .string [value]).length ≤ 1 := by
    rcases hm.value with ⟨k, hk, x, rfl⟩ | rfl
    · obtain rfl := List.mem_singleton.mp hk
      exact Nat.le_refl 1
    · exact Nat.zero_le 1
  rw [hm.children, outermostAll, outermostAll, hop, hstray]
  simpa [outermost] using hvalue

end Tree

open LogQuery.Tree (Within leavesAll fillAll)

variable {query : Text} {before after : List Token} {gs : List Tree} {e f : Element}

/-- What a matcher of a query is filled from. -/
theorem matcher_filled (h : Within (parse query).children before (.node .matcher gs) after) :
    ∃ ds ts, gs = (fillAll ds ts).1 ∧ Grammar.MatcherShape ds := by
  obtain ⟨ahead, ds, behind, hf⟩ := parse_filled h
  exact ⟨ds, _, hf.children, (stripped_sites query ahead _ ds behind hf.origin).matcher rfl⟩

/-- No selector is in a matcher. -/
theorem matcher_flat (h : Within (parse query).children before (.node .matcher gs) after) :
    .selector ∉ Tree.kindsAll gs := by
  obtain ⟨ds, ts, rfl, hm⟩ := matcher_filled h
  intro hs
  rcases Tree.fillAll_kinds ds ts hs with hs | hs
  · exact absurd (Tree.matcherShape_kinds hm _ hs) (by decide)
  · cases hs

theorem matcher_strings (h : Within (parse query).children before (.node .matcher gs) after) :
    ((Tree.node .matcher gs).outermost .string).length ≤ 1 := by
  obtain ⟨ds, ts, rfl, hm⟩ := matcher_filled h
  have hl : (Tree.outermostAll .string (fillAll ds ts).1).length =
      (Tree.outermostAll .string ds).length := by
    rw [← List.length_map (f := Tree.strip), ← Tree.outermostAll_strip, Tree.stripAll_fillAll,
      Tree.outermostAll_strip, List.length_map]
  exact hl.trans_le (Tree.matcherShape_strings hm)

/-- A matcher begins with a name that is not empty. -/
theorem matcher_name (h : Within (parse query).children before (.node .matcher gs) after) :
    ∃ c x more, gs = .leaf .identifier (c :: x) :: more := by
  obtain ⟨⟨x, more, rfl⟩, -⟩ := (parse_sturdy h).matcher rfl
  have hl : (⟨.identifier, x⟩ : Token) ∈ (parse query).leaves :=
    leaf_within_root h (.head _)
  obtain ⟨c, y, rfl⟩ := List.exists_cons_of_ne_nil (leaf_ne_nil hl)
  exact ⟨c, y, more, rfl⟩

theorem mem_matchers (h : e ∈ elements query (some [.matcher])) :
    ∃ before gs after, Within (parse query).children before (.node .matcher gs) after ∧
      Element.At query (Token.spelled before) (.node .matcher gs) e := by
  rw [elements_walk] at h
  exact elements_node rfl (by decide) h

/-- A matcher takes some place. -/
theorem matcher_span (h : e ∈ elements query (some [.matcher])) : e.span.start < e.span.stop := by
  obtain ⟨before, gs, after, hw, ha⟩ := mem_matchers h
  obtain ⟨c, x, more, rfl⟩ := matcher_name hw
  rw [ha.element, Element.elementAt_span]
  have hc := c.utf8Size_pos
  simp only [Tree.bytes, Tree.bytesAll, Text.bytes]
  omega

theorem matcher_key (h : e ∈ elements query (some [.matcher]))
    (hf : e.first? .identifier = some f) : f.span.text query ≠ [] := by
  obtain ⟨before, gs, after, hw, ha⟩ := mem_matchers h
  obtain ⟨c, x, more, rfl⟩ := matcher_name hw
  have hl := Element.first_located (k := .identifier) ha
  rw [hf] at hl
  have hu : ((Tree.node .matcher (.leaf .identifier (c :: x) :: more)).outermost
      .identifier).head? = some (.leaf .identifier (c :: x)) := rfl
  rw [hu] at hl
  cases hl with
  | some hl =>
    obtain ⟨front, hl⟩ := hl
    rw [Element.at_text hl]
    exact List.cons_ne_nil c x

/-- All strings of a matcher are its first. -/
theorem matcher_values (h : e ∈ elements query (some [.matcher])) (hf : e.first? .string = some f) :
    e.outermost .string = [f] := by
  obtain ⟨before, gs, after, hw, ha⟩ := mem_matchers h
  obtain ⟨rest, hq⟩ := ha.fits
  have hlen := (Element.outermost_located (k := .string) _ hq).length_eq
  rw [← ha.element] at hlen
  have hone := matcher_strings hw
  rw [Element.first?] at hf
  generalize e.outermost .string = es at hf hlen
  rcases es with _ | ⟨g, _ | ⟨g', es⟩⟩
  · cases hf
  · obtain rfl := Option.some.inj hf
    rfl
  · simp only [List.length_cons] at hlen
    omega

end LogQuery
