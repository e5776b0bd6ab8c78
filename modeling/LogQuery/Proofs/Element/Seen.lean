import Mathlib.Data.List.Find
import LogQuery.Proofs.Element.Sight
import LogQuery.Proofs.Lines.Chain
import LogQuery.Proofs.Tree.Spot

/-! What is found in the elements of a query is found in the same order in its tree without blanks
and comments. -/
namespace LogQuery

open LogQuery.Tree (Within Proper listed)

variable {query : Text} {e f : Element} {t u : Tree} {k : Kind} {keep : Kind → Bool} {l : Token}

/-- An element of a query, and its tree without blanks and comments. -/
def Seen (query : Text) (e : Element) (t : Tree) : Prop := ∃ ahead, Sight.Of query e ⟨ahead, t⟩

theorem seen_kind (h : Seen query e t) : e.kind = t.kind := by
  obtain ⟨ahead, h⟩ := h
  exact sight_kind h

theorem sights_listed {es : List Element} {ahead : List Token} (cs : List Tree)
    (h : List.Forall₂ (Sight.Of query) es (Tree.sights ahead cs)) :
    List.Forall₂ (Seen query) es (listed cs) := by
  induction cs generalizing es ahead with
  | nil =>
    cases h
    exact .nil
  | cons c cs ih =>
    rw [Tree.sights] at h
    split at h
    · next hc =>
      rw [Tree.listed_named hc]
      cases h with
      | cons he h => exact .cons ⟨ahead, he⟩ (ih h)
    · next hc =>
      rw [Tree.listed_unnamed (by simpa using hc)]
      exact ih h

theorem seen_children (h : Seen query e t) :
    List.Forall₂ (Seen query) e.children (listed t.children) := by
  obtain ⟨ahead, h⟩ := h
  exact sights_listed _ (sight_children h)

/-- The elements of a query that are no part of any other but the root. -/
theorem seen_root (query : Text) :
    List.Forall₂ (Seen query) (rootElement query).children (listed (stripped query)) :=
  sights_listed _ (sights_root query)

namespace Element

mutual

theorem walk_seen : (t : Tree) → {e : Element} → Seen query e t →
    List.Forall₂ (Seen query) (e.walk keep) (t.parts keep)
  | .leaf k x, mk l s es, h => by
    obtain rfl : l = k := seen_kind h
    have hes : List.Forall₂ (Seen query) es [] := seen_children h
    cases hes
    rw [walk, Tree.parts, walkAll, List.append_nil]
    split
    · exact .cons h .nil
    · exact .nil
  | .node k cs, mk l s es, h => by
    obtain rfl : l = k := seen_kind h
    rw [walk, Tree.parts]
    refine List.rel_append ?_ (walkAll_seen cs (seen_children h))
    split
    · exact .cons h .nil
    · exact .nil

theorem walkAll_seen : (cs : List Tree) → {es : List Element} →
    List.Forall₂ (Seen query) es (listed cs) →
    List.Forall₂ (Seen query) (walkAll keep es) (Tree.partsAll keep cs)
  | [], _, h => by
    cases h
    exact .nil
  | c :: cs, es, h => by
    rw [Tree.partsAll]
    split
    · next hc =>
      rw [Tree.listed_named hc] at h
      cases h with
      | cons he h => exact List.rel_append (walk_seen c he) (walkAll_seen cs h)
    · next hc =>
      rw [Tree.listed_unnamed (by simpa using hc)] at h
      exact walkAll_seen cs h

end

mutual

theorem outermost_seen : (t : Tree) → {e : Element} → Seen query e t →
    List.Forall₂ (Seen query) (e.outermost k) (t.outermost k)
  | .leaf l x, mk m s es, h => by
    obtain rfl : m = l := seen_kind h
    have hes : List.Forall₂ (Seen query) es [] := seen_children h
    cases hes
    rw [outermost, Tree.outermost]
    split
    · exact .cons h .nil
    · exact .nil
  | .node l cs, mk m s es, h => by
    obtain rfl : m = l := seen_kind h
    rw [outermost, Tree.outermost]
    split
    · exact .cons h .nil
    · exact outermostAll_seen cs (seen_children h)

theorem outermostAll_seen : (cs : List Tree) → {es : List Element} →
    List.Forall₂ (Seen query) es (listed cs) →
    List.Forall₂ (Seen query) (outermostAll k es) (Tree.outermostAll k cs)
  | [], _, h => by
    cases h
    exact .nil
  | c :: cs, es, h => by
    rw [Tree.outermostAll]
    split
    · next hc =>
      rw [Tree.listed_named hc] at h
      cases h with
      | cons he h => exact List.rel_append (outermost_seen c he) (outermostAll_seen cs h)
    · next hc =>
      rw [Tree.listed_unnamed (by simpa using hc)] at h
      exact outermostAll_seen cs h

end

end Element

/-- The elements of a kind, as they are walked over. -/
theorem elements_seen (query : Text) (hk : k ≠ .logQl) :
    List.Forall₂ (Seen query) (elements query (some [k]))
      (Tree.partsAll (fun l => l = k) (stripped query)) := by
  have hroot : elements query (some [k]) =
      (if decide (Kind.logQl = k) then [rootElement query] else []) ++
        Element.walkAll (fun l => l = k) (rootElement query).children := by
    rw [elements_walk, rootElement, parse_children]
    rfl
  rw [hroot, if_neg (by simpa using hk.symm), List.nil_append]
  exact Element.walkAll_seen _ (seen_root query)

namespace Tree

mutual

/-- What is found in a tree stands in it. -/
theorem outermost_within : (t : Tree) → u ∈ t.outermost k →
    u.kind = k ∧ ∃ before after, Within [t] before u after
  | leaf l x, h => by
    rw [outermost] at h
    split at h
    · next hl =>
      obtain rfl := List.mem_singleton.mp h
      exact ⟨hl, [], [], .head _ []⟩
    · cases h
  | node l cs, h => by
    rw [outermost] at h
    split at h
    · next hl =>
      obtain rfl := List.mem_singleton.mp h
      exact ⟨hl, [], [], .head _ []⟩
    · obtain ⟨hu, before, after, hw⟩ := outermostAll_within cs h
      exact ⟨hu, before, _, .inside l [] hw⟩

theorem outermostAll_within : (cs : List Tree) → u ∈ outermostAll k cs →
    u.kind = k ∧ ∃ before after, Within cs before u after
  | [], h => by cases h
  | c :: cs, h => by
    rw [outermostAll, List.mem_append] at h
    rcases h with h | h
    · split at h
      · obtain ⟨hu, before, after, hw⟩ := outermost_within c h
        exact ⟨hu, before, _, within_append_left hw cs⟩
      · cases h
    · obtain ⟨hu, before, after, hw⟩ := outermostAll_within cs h
      exact ⟨hu, _, after, .tail c hw⟩

end

mutual

theorem parts_within : (t : Tree) → u ∈ t.parts keep →
    keep u.kind = true ∧ ∃ before after, Within [t] before u after
  | leaf l x, h => by
    rw [parts] at h
    split at h
    · next hl =>
      obtain rfl := List.mem_singleton.mp h
      exact ⟨hl, [], [], .head _ []⟩
    · cases h
  | node l cs, h => by
    rw [parts, List.mem_append] at h
    rcases h with h | h
    · split at h
      · next hl =>
        obtain rfl := List.mem_singleton.mp h
        exact ⟨hl, [], [], .head _ []⟩
      · cases h
    · obtain ⟨hu, before, after, hw⟩ := partsAll_within cs h
      exact ⟨hu, before, _, .inside l [] hw⟩

theorem partsAll_within : (cs : List Tree) → u ∈ partsAll keep cs →
    keep u.kind = true ∧ ∃ before after, Within cs before u after
  | [], h => by cases h
  | c :: cs, h => by
    rw [partsAll, List.mem_append] at h
    rcases h with h | h
    · split at h
      · obtain ⟨hu, before, after, hw⟩ := parts_within c h
        exact ⟨hu, before, _, within_append_left hw cs⟩
      · cases h
    · obtain ⟨hu, before, after, hw⟩ := partsAll_within cs h
      exact ⟨hu, _, after, .tail c hw⟩

end

end Tree

/-- A place in the tree of a query where something is seen. -/
theorem seen_within (h : Seen query e t) : ∃ before u after,
    Within (parse query).children before u after ∧ u.isTrivia = false ∧ u.strip = t ∧
      Element.At query (Token.spelled before) u e := by
  obtain ⟨ahead, before, u, after, hw, hu, rfl, hs⟩ := h
  exact ⟨before, u, after, hw, hu, ((Sight.mk.inj hs).2).symm, within_at hw⟩

theorem seen_token (h : Seen query e (.ofToken l)) :
    Element.Located query e (.ofToken l) := by
  obtain ⟨before, u, after, -, -, hstrip, ha⟩ := seen_within h
  cases u with
  | node k cs => cases hstrip
  | leaf k x =>
    rw [← hstrip]
    exact ⟨_, ha⟩

theorem seen_leaves (h : Seen query e t) : ∀ l ∈ t.leaves, l ∈ (parse query).leaves := by
  obtain ⟨before, u, after, hw, hu, rfl, -⟩ := seen_within h
  intro l hl
  rw [Tree.leaves_strip u hu] at hl
  exact leaf_within_root hw (List.mem_of_mem_filter hl)

/-- The first element of a kind of tokens is the first token of that kind. -/
theorem first_token (h : Seen query e t) (hk : k.isNamed = true) (hn : k.isNode = false) :
    Option.Rel (Element.Located query) (e.first? k)
      ((t.leaves.find? fun l => l.kind = k).map .ofToken) := by
  obtain ⟨before, u, after, hw, hu, rfl, ha⟩ := seen_within h
  have hproper : Proper [u] := Tree.proper_within (parse_proper query) hw
  have htrivia : ∀ l : Token, l.kind = k → l.isTrivia = false := by
    intro l hl
    rw [Token.isTrivia, hl]
    by_contra ht
    rw [Kind.isNamed_of_trivia (by simpa using ht)] at hk
    cases hk
  have hfind : u.strip.leaves.find? (fun l => l.kind = k) =
      u.leaves.find? fun l => l.kind = k := by
    rw [Tree.leaves_strip u hu, Token.significant, List.find?_filter]
    congr 1
    funext l
    by_cases hl : l.kind = k
    · simp [hl, htrivia l hl]
    · simp [hl]
  have hfirst := Element.first_located (k := k) ha
  rwa [Tree.outermost_tokens hk hn u hproper, List.head?_map, List.head?_filter, ← hfind]
    at hfirst

theorem first_token_isSome (h : Seen query e t) (hk : k.isNamed = true) (hn : k.isNode = false) :
    (e.first? k).isSome = (t.leaves.find? fun l => l.kind = k).isSome := by
  have hr := first_token h hk hn
  generalize e.first? k = a at hr
  cases ht : t.leaves.find? fun l => l.kind = k with
  | none =>
    rw [ht] at hr
    cases hr
    rfl
  | some l =>
    rw [ht] at hr
    cases hr
    rfl

theorem Element.located_none {a : Option Element} (h : Option.Rel (Located query) a none) :
    a = none := by
  cases h
  rfl

theorem first_token_none (h : Seen query e t) (hk : k.isNamed = true) (hn : k.isNode = false)
    (ht : ∀ l ∈ t.leaves, l.kind ≠ k) : e.first? k = none := by
  have hr := first_token h hk hn
  have hnone : (t.leaves.find? fun l => l.kind = k) = none := by
    simpa [List.find?_eq_none] using ht
  rw [hnone, Option.map_none] at hr
  exact Element.located_none hr

/-- What is looked for by kinds of tokens is found by the tokens of the tree. -/
theorem find_seen {α : Type} (choices : List (Kind × α)) (h : Seen query e t)
    (hk : ∀ p ∈ choices, p.1.isNamed = true ∧ p.1.isNode = false) :
    (choices.find? fun (k, _) => (e.first? k).isSome) =
      choices.find? fun (k, _) => t.leaves.any fun l => l.kind = k := by
  apply List.find?_congr
  intro p hp
  have hfirst := first_token_isSome h (hk p hp).1 (hk p hp).2
  show (e.first? p.1).isSome = t.leaves.any fun l => l.kind = p.1
  rw [hfirst, Bool.eq_iff_iff, List.find?_isSome, List.any_eq_true]

theorem seen_quoted (h : Seen query e t) (hl : l ∈ t.leaves) (hk : l.kind = .string) :
    l.IsQuoted := leaf_quoted (seen_leaves h l hl) hk

end LogQuery
