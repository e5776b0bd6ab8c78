import LogQuery.Proofs.Lossless

/-! A tree without an error node conforms, also with its blanks and comments put back. -/
namespace LogQuery.Tree

variable {ts taken : List Token}

theorem fill_kind (t : Tree) (ts : List Token) : (t.fill ts).1.kind = t.kind := by
  cases t with
  | leaf k x => rfl
  | node k cs => rfl

theorem word_trivia (h : ∀ t ∈ ts, t.isTrivia = true) : word (ts.map ofToken) = [] := by
  simpa [word, ofToken, kind, List.filter_eq_nil_iff, Token.isTrivia] using h

theorem conforms_trivia (ts : List Token) : ∀ c ∈ ts.map ofToken, c.Conforms := by
  intro c hc
  obtain ⟨t, _, rfl⟩ := List.mem_map.mp hc
  exact .leaf t.kind t.text

theorem word_fillAll (cs : List Tree) (ts : List Token) : word (fillAll cs ts).1 = word cs := by
  induction cs generalizing ts with
  | nil => rfl
  | cons c cs ih =>
    have ht : word ((ts.takeWhile Token.isTrivia).map ofToken) = [] :=
      word_trivia fun t ht => List.mem_takeWhile_imp ht
    have hc := fill_kind c (ts.dropWhile Token.isTrivia)
    have hcs := ih (c.fill (ts.dropWhile Token.isTrivia)).2
    simp only [fillAll, word_append, ht, List.nil_append]
    simp only [word, List.map_cons, List.filter_cons, hc] at hcs ⊢
    rw [hcs]

mutual

/-- Trivia ahead of a child does not show in the word of a node. -/
theorem fill_conforms : (t : Tree) → (ts : List Token) → t.Conforms → (t.fill ts).1.Conforms
  | leaf k x, _, _ => .leaf k x
  | node k cs, ts, h => by
    cases h with
    | node k cs hw hcs =>
      refine .node k _ ?_ (fillAll_conforms cs ts hcs)
      rw [word_fillAll]
      exact hw

theorem fillAll_conforms : (cs : List Tree) → (ts : List Token) → (∀ c ∈ cs, c.Conforms) →
    ∀ c ∈ (fillAll cs ts).1, c.Conforms
  | [], _, _ => fun c hc => by cases hc
  | d :: ds, ts, h => by
    intro c hc
    simp only [fillAll, List.mem_append, List.mem_cons] at hc
    rcases hc with hc | rfl | hc
    · exact conforms_trivia _ c hc
    · exact fill_conforms d _ (h d (by simp))
    · exact fillAll_conforms ds _ (fun e he => h e (by simp [he])) c hc

end

mutual

/-- Filling a tree takes no kind out of it. -/
theorem kinds_fill : (t : Tree) → (ts : List Token) → t.kinds ⊆ (t.fill ts).1.kinds
  | leaf _ _, _ => by simp [fill, kinds]
  | node k cs, ts => by
    have h := kindsAll_fillAll cs ts
    intro x hx
    simp only [kinds, fill, List.mem_cons] at hx ⊢
    exact hx.imp_right fun hx => h hx

theorem kindsAll_fillAll : (cs : List Tree) → (ts : List Token) →
    kindsAll cs ⊆ kindsAll (fillAll cs ts).1
  | [], _ => by simp [kindsAll]
  | c :: cs, ts => by
    have h₁ := kinds_fill c (ts.dropWhile Token.isTrivia)
    have h₂ := kindsAll_fillAll cs (c.fill (ts.dropWhile Token.isTrivia)).2
    intro x hx
    simp only [kindsAll, fillAll, Grammar.kindsAll_append, List.mem_append] at hx ⊢
    exact Or.inr (hx.imp (fun hx => h₁ hx) fun hx => h₂ hx)

end

theorem withTrivia_conforms {k : Kind} {cs : List Tree}
    (h : List.Forall₂ Token.ReadAs (Token.significant ts) (leavesAll cs))
    (hc : (node k cs).Conforms) : ((node k cs).withTrivia ts).Conforms := by
  cases hc with
  | node k cs hw hcs =>
    refine .node k _ ?_ fun c hm => ?_
    · rw [word_append, word_fillAll, word_trivia (fillAll_rest_trivia h), List.append_nil]
      exact hw
    · rcases List.mem_append.mp hm with hm | hm
      · exact fillAll_conforms cs ts hcs c hm
      · exact conforms_trivia _ c hm

theorem kinds_withTrivia (t : Tree) (ts : List Token) : t.kinds ⊆ (t.withTrivia ts).kinds := by
  cases t with
  | leaf k x => exact List.Subset.refl _
  | node k cs =>
    intro x hx
    simp only [kinds, withTrivia, List.mem_cons, Grammar.kindsAll_append, List.mem_append] at hx ⊢
    exact hx.imp_right fun hx => Or.inl (kindsAll_fillAll cs ts hx)

end LogQuery.Tree

namespace LogQuery

/-- In the tree of a query without an error node, the children of every node follow the production
of its kind. -/
theorem parse_conforms (query : Text) (h : (parse query).holds .error = false) :
    (parse query).Conforms := by
  have hr := Grammar.queryTree_reads Grammar.maxLevels (Token.significant (Token.lex query))
  refine Tree.withTrivia_conforms hr (Grammar.queryTree_conforms _ _ fun he => ?_)
  have := Tree.kinds_withTrivia _ (Token.lex query) he
  simp_all [Tree.holds, parse]

def aggregationText : Text :=
  "sum by (app) (rate(\x7bapp=\"api\"\x7d |= \"x\" | json | a > 5 or b=~\"y\" [5m])) > 2".toList

theorem parse_conforms_aggregation :
    (parse aggregationText).holds .error = false ∧ (parse aggregationText).Conforms := by
  have h : (parse aggregationText).holds .error = false := by decide +kernel
  exact ⟨h, parse_conforms _ h⟩

end LogQuery
