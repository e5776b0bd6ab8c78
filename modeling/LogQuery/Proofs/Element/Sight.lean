import LogQuery.Proofs.Element.Related
import LogQuery.Proofs.FieldParser
import LogQuery.Proofs.Token.Quoted

/-! What the grammar sees of an element: its tree without blanks and comments, and the tokens ahead
of it without them. Elements of two queries of which it sees the same go together. -/
namespace LogQuery

open LogQuery.Tree (Within stripAll)

structure Sight where
  ahead : List Token
  tree : Tree

/-- What the grammar sees of the trees that are listed, behind some tokens. -/
def Tree.sights (ahead : List Token) : List Tree → List Sight
  | [] => []
  | t :: ts =>
    let more := sights (ahead ++ t.leaves) ts
    if t.kind.isNamed then ⟨ahead, t⟩ :: more else more

/-- An element of a query, and what the grammar sees of it. -/
def Sight.Of (query : Text) (e : Element) (s : Sight) : Prop :=
  ∃ before u after, Within (parse query).children before u after ∧ u.isTrivia = false ∧
    e = u.elementAt (Token.spelled before).bytes ∧ s = ⟨Token.significant before, u.strip⟩

/-- Elements of which the grammar sees the same. -/
def SameSight (q r : Text) (e f : Element) : Prop := ∃ s, Sight.Of q e s ∧ Sight.Of r f s

variable {query q r : Text} {before after : List Token} {cs gs : List Tree} {e f : Element}
  {s : Sight} {k : Kind}

theorem Tree.strip_kind (t : Tree) : t.strip.kind = t.kind := by
  cases t <;> rfl

/-- A blank or a comment is not listed, and the grammar does not see it. -/
theorem Tree.trivia_unseen {c : Tree} (h : c.isTrivia = true) :
    c.kind.isNamed = false ∧ Token.significant c.leaves = [] := by
  cases c with
  | leaf k x =>
    refine ⟨Kind.isNamed_of_trivia h, Tree.significant_trivia fun l hl => ?_⟩
    obtain rfl := List.mem_singleton.mp hl
    exact h
  | node k ds => cases h

/-- The elements of some trees behind some tokens of a query. -/
theorem sights_elements (cs : List Tree) (before : List Token)
    (h : ∀ ahead u behind, Within cs ahead u behind →
      ∃ after, Within (parse query).children (before ++ ahead) u after) :
    List.Forall₂ (Sight.Of query) (Tree.elementsAt (Token.spelled before).bytes cs)
      (Tree.sights (Token.significant before) (stripAll cs)) := by
  induction cs generalizing before with
  | nil => exact .nil
  | cons c cs ih =>
    have hmore := ih (before ++ c.leaves) fun ahead u behind hw => by
      obtain ⟨after, hu⟩ := h _ u behind (.tail c hw)
      exact ⟨after, by rwa [List.append_assoc]⟩
    rw [Token.spelled_append, Text.bytes_append, Element.leaves_bytes,
      Tree.significant_append] at hmore
    rw [Tree.elementsAt, stripAll]
    cases hc : c.isTrivia with
    | true =>
      obtain ⟨hn, hnone⟩ := Tree.trivia_unseen hc
      rw [hnone, List.append_nil] at hmore
      simpa only [hn, Bool.false_eq_true, if_false, if_true] using hmore
    | false =>
      obtain ⟨after, hw⟩ := h [] c _ (.head c cs)
      rw [List.append_nil] at hw
      rw [← Tree.leaves_strip c hc] at hmore
      simp only [Bool.false_eq_true, if_false, Tree.sights, Tree.strip_kind]
      split
      · exact .cons ⟨before, c, after, hw, hc, rfl, rfl⟩ hmore
      · exact hmore

/-- The elements of a query that are no part of any other but the root. -/
theorem sights_root (query : Text) :
    List.Forall₂ (Sight.Of query) (rootElement query).children
      (Tree.sights [] (stripped query)) := by
  have hs := @sights_elements query (parse query).children [] fun _ _ _ hw => ⟨_, hw⟩
  have hstrip : stripAll (parse query).children = stripped query := by
    have h := parse_strip query
    rw [parse_children, Tree.strip] at h
    exact (Tree.node.inj h).2
  rw [root_children, ← hstrip]
  exact hs

theorem sight_kind (h : s.Of query e) : e.kind = s.tree.kind := by
  obtain ⟨before, u, after, -, -, rfl, rfl⟩ := h
  rw [Element.elementAt_kind, Tree.strip_kind]

/-- The children of an element. -/
theorem sight_children (h : s.Of query e) :
    List.Forall₂ (Sight.Of query) e.children (Tree.sights s.ahead s.tree.children) := by
  obtain ⟨before, u, after, hw, -, rfl, rfl⟩ := h
  cases u with
  | leaf k x => exact .nil
  | node k gs =>
    exact sights_elements gs before fun _ _ _ hin => ⟨_, Tree.within_trans hw hin⟩

theorem sameSight_children {es fs : List Element} {ss : List Sight}
    (hq : List.Forall₂ (Sight.Of q) es ss) (hr : List.Forall₂ (Sight.Of r) fs ss) :
    List.Forall₂ (SameSight q r) es fs := by
  induction ss generalizing es fs with
  | nil =>
    cases hq
    cases hr
    exact .nil
  | cons s ss ih =>
    cases hq with
    | cons he hq =>
      cases hr with
      | cons hf hr => exact .cons ⟨s, he, hf⟩ (ih hq hr)

theorem sameSight_descends (q r : Text) : Element.Descends (SameSight q r) where
  kind := by
    rintro e f ⟨s, he, hf⟩
    rw [sight_kind he, sight_kind hf]
  children := by
    rintro e f ⟨s, he, hf⟩
    exact sameSight_children (sight_children he) (sight_children hf)

/-- Queries of which the grammar sees the same. -/
theorem sameSight_root (h : significant q = significant r) :
    List.Forall₂ (SameSight q r) (rootElement q).children (rootElement r).children := by
  have hs : stripped q = stripped r := by rw [stripped, stripped, h]
  have hq := sights_root q
  rw [hs] at hq
  exact sameSight_children hq (sights_root r)

/-- Elements of which the grammar sees the same token. -/
theorem sameSight_token (h : SameSight q r e f) (hk : e.kind.isNode = false) :
    ∃ l : Token, l.kind = e.kind ∧ l ∈ (parse q).leaves ∧ Element.Located q e (.ofToken l) ∧
      Element.Located r f (.ofToken l) := by
  obtain ⟨s, ⟨b, t, a, hq, -, rfl, rfl⟩, ⟨b', u, a', hr, -, rfl, hs⟩⟩ := h
  cases t with
  | node k gs => exact absurd (within_node hq) (Bool.eq_false_iff.mp hk)
  | leaf k x =>
    cases u with
    | node l gs => exact absurd (Sight.mk.inj hs).2 (by simp [Tree.strip])
    | leaf l y =>
      obtain ⟨-, hstrip⟩ := Sight.mk.inj hs
      obtain ⟨rfl, rfl⟩ := Tree.leaf.inj hstrip
      exact ⟨⟨k, x⟩, rfl, leaf_within_root hq (List.mem_singleton_self _), ⟨_, within_at hq⟩,
        ⟨_, within_at hr⟩⟩

theorem sameSight_text (h : SameSight q r e f) (hk : e.kind.isNode = false) :
    e.span.text q = f.span.text r := by
  obtain ⟨l, -, -, ⟨_, hq⟩, ⟨_, hr⟩⟩ := sameSight_token h hk
  rw [Element.at_text hq, Element.at_text hr]

/-- Strings have the same value and the same quotes. -/
theorem sameSight_string (h : SameSight q r e f) (hk : e.kind = .string) :
    e.span.unquoted q = f.span.unquoted r ∧
      q.slice? e.span.start (e.span.start + 1) = r.slice? f.span.start (f.span.start + 1) := by
  obtain ⟨l, hl, hm, ⟨_, hq⟩, ⟨_, hr⟩⟩ := sameSight_token h (by rw [hk]; rfl)
  have hquoted := leaf_quoted hm (hl.trans hk)
  refine ⟨by rw [at_value hq hquoted, at_value hr hquoted], ?_⟩
  obtain ⟨c, hc, ht⟩ := hquoted
  rw [Element.at_first hq ht (Token.quote_size hc), Element.at_first hr ht (Token.quote_size hc)]

/-- The words up to the end of an element are those that the grammar sees up to there. -/
theorem sight_words {w : Keyword} (h : s.Of query e) :
    wordEndsBy query w e.span.stop = true ↔ Said w (s.ahead ++ s.tree.leaves) := by
  obtain ⟨before, u, after, hw, hu, rfl, rfl⟩ := h
  have hstop : (u.elementAt (Token.spelled before).bytes).span.stop =
      (Token.spelled (before ++ u.leaves)).bytes := by
    rw [Element.elementAt_span, Token.spelled_append, Text.bytes_append, Element.leaves_bytes]
  rw [hstop, wordEndsBy_iff (parse_leaves hw), ← said_significant, Tree.significant_append,
    Tree.leaves_strip u hu]

theorem sameSight_words {w : Keyword} (h : SameSight q r e f) :
    wordEndsBy q w e.span.stop = wordEndsBy r w f.span.stop := by
  obtain ⟨s, he, hf⟩ := h
  rw [Bool.eq_iff_iff, sight_words he, sight_words hf]

end LogQuery
