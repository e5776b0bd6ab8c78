import LogQuery.Proofs.Labels
import LogQuery.Proofs.Token.Quoted
import LogQuery.Proofs.Tree.Spot

/-! The matchers of a query are the matchers of its tree, and those on indexed labels stand below
the first selector. -/
namespace LogQuery

namespace Tree

variable {cs ds : List Tree} {k : Kind} {c : Tree} {ks : List Kind}

theorem tokens_strip (hk : k.isTrivia = false) (cs : List Tree) :
    tokens k (stripAll cs) = tokens k cs := by
  rw [tokens, leavesAll_strip, Token.significant, List.filter_filter, tokens]
  apply List.filter_congr
  intro l _
  by_cases hl : l.kind = k
  · simp [hl, Token.isTrivia, hk]
  · simp [hl]

/-- Blanks and comments bring no tokens of other kinds. -/
theorem tokens_fillAll (hk : k.isTrivia = false) (cs : List Tree) (ts : List Token) :
    tokens k (fillAll cs ts).1 = tokens k cs := by
  rw [← tokens_strip hk, stripAll_fillAll, tokens_strip hk]

theorem tokens_expected (h : Grammar.Expected ks c) (hk : k ∉ ks) : tokens k [c] = [] := by
  rcases h with ⟨l, hl, x, rfl⟩ | rfl
  · have hne : l ≠ k := fun he => hk (he ▸ hl)
    simp [tokens, leavesAll, leaves, hne]
  · rfl

theorem tokens_append (cs ds : List Tree) : tokens k (cs ++ ds) = tokens k cs ++ tokens k ds := by
  rw [tokens, leavesAll_append, List.filter_append]
  rfl

/-- What is in a matcher besides operators and characters that are no token. -/
theorem matcherParts_tokens {name : Text} {op value : Tree} {stray : List Tree}
    (h : Grammar.MatcherParts cs name op stray value) (hk : k ∉ .unknown :: Grammar.matcherOps) :
    tokens k cs = tokens k [.leaf .identifier name] ++ tokens k [value] := by
  rw [List.mem_cons, not_or] at hk
  have hop : tokens k [op] = [] := tokens_expected h.op hk.2
  have hstray : tokens k stray = [] := by
    rcases h.stray with rfl | ⟨us, hus, rfl⟩
    · rfl
    · rw [tokens, List.filter_eq_nil_iff]
      intro l hl
      simp only [leavesAll, leaves, leavesAll_ofToken, List.append_nil] at hl
      simpa [hus l hl] using fun hu => hk.1 hu.symm
  have hcs : cs = [.leaf .identifier name] ++ ([op] ++ (stray ++ [value])) := h.children
  rw [hcs, tokens_append, tokens_append, tokens_append, hop, hstray]
  rfl

/-- A matcher holds one name. -/
theorem matcherParts_names {name : Text} {op value : Tree} {stray : List Tree}
    (h : Grammar.MatcherParts cs name op stray value) :
    tokens .identifier cs = [⟨.identifier, name⟩] := by
  have hvalue : tokens .identifier [value] = [] := tokens_expected h.value (by decide)
  rw [matcherParts_tokens h (by decide), hvalue]
  rfl

end Tree

open LogQuery.Tree (Within Spot tokens)

/-- A matcher says what a node holds: its one name, and the value of its one string, if any. -/
structure Matcher.Given (cs : List Tree) (m : Matcher) : Prop where
  key : tokens .identifier cs = [⟨.identifier, m.key⟩]
  values : m.values = (tokens .string cs).map Token.value
  few : (tokens .string cs).length ≤ 1
  quoted : ∀ t ∈ tokens .string cs, t.IsQuoted

variable {query : Text} {before after : List Token} {gs : List Tree} {e : Element}

theorem located_values {es : List Element} {ts : List Token}
    (h : List.Forall₂ (Element.Located query) es (ts.map .ofToken)) (hq : ∀ t ∈ ts, t.IsQuoted) :
    es.map (·.span.unquoted query) = ts.map Token.value := by
  induction ts generalizing es with
  | nil =>
    cases h
    rfl
  | cons t ts ih =>
    cases h with
    | cons he h =>
      obtain ⟨before, he⟩ := he
      rw [List.map_cons, List.map_cons, at_value he (hq t (.head _)),
        ih h fun u hu => hq u (.tail _ hu)]

theorem ofElement_given (hw : Within (parse query).children before (.node .matcher gs) after)
    (ha : Element.At query (Token.spelled before) (.node .matcher gs) e) (selector : Span) :
    ∃ m, Matcher.ofElement? query selector e = some m ∧ m.Given gs ∧
      (m.place = .indexed ↔ selector.contains e.span = true) := by
  have hproper := Tree.proper_within (parse_proper query) hw
  have hstrings : (Tree.node .matcher gs).outermost .string = (tokens .string gs).map .ofToken :=
    Tree.outermost_tokens rfl rfl _ hproper
  have hnames : (Tree.node .matcher gs).outermost .identifier =
      (tokens .identifier gs).map .ofToken := Tree.outermost_tokens rfl rfl _ hproper
  obtain ⟨x, hkey⟩ : ∃ x, tokens .identifier gs = [⟨.identifier, x⟩] := by
    obtain ⟨ds, ts, rfl, name, op, stray, value, hm⟩ := matcher_filled hw
    exact ⟨name, (Tree.tokens_fillAll rfl ds ts).trans (Tree.matcherParts_names hm)⟩
  have hquoted : ∀ t ∈ tokens .string gs, t.IsQuoted := by
    intro t ht
    obtain ⟨ht, hk⟩ := List.mem_filter.mp ht
    exact leaf_quoted (leaf_within_root hw ht) (of_decide_eq_true hk)
  obtain ⟨name, hname, hn⟩ := Element.first_some (k := .identifier) ha
    (u := .leaf .identifier x) (by rw [hnames, hkey]; rfl)
  obtain ⟨rest, hq⟩ := ha.fits
  have hvalues := Element.outermost_located (k := .string) _ hq
  rw [← ha.element, hstrings] at hvalues
  obtain ⟨front, hn⟩ := hn
  refine ⟨_, by rw [Matcher.ofElement?, hname, Option.map_some], ?_, ?_⟩
  · constructor
    · rw [hkey, Element.at_text hn]
      rfl
    · exact located_values hvalues hquoted
    · have hone := matcher_strings hw
      rwa [hstrings, List.length_map] at hone
    · exact hquoted
  · by_cases hc : selector.contains e.span = true <;> simp [hc]

variable {s first : Spot}

section Size

variable (size : List Token → Nat) (hadd : ∀ ts us, size (ts ++ us) = size ts + size us)

include hadd

/-- A place that another ends before. -/
theorem ahead_size {r : Spot} {mid : List Token} (h : r.ahead = s.ahead ++ s.tree.leaves ++ mid) :
    size s.ahead + size s.tree.leaves ≤ size r.ahead := by
  rw [h, hadd, hadd]
  exact Nat.le_add_right _ _

/-- A matcher stands below a selector just if it lies between the bounds of the selector, in any
size of tokens that adds up and that the matcher has some of. -/
theorem selector_below (hf : first ∈ (parse query).spots .selector)
    (hs : s ∈ (parse query).spots .matcher) (hpos : 0 < size s.tree.leaves) :
    s.Below first ↔ size first.ahead ≤ size s.ahead ∧
      size s.ahead + size s.tree.leaves ≤ size first.ahead + size first.tree.leaves := by
  obtain ⟨gs, after, ht, hw⟩ := spot_node rfl (by decide) hs
  obtain ⟨hfirst, hfk⟩ := Tree.mem_spots.mp hf
  obtain ⟨hlead, hsk⟩ := Tree.mem_spots.mp hs
  -- A matcher holds no selector.
  have hflat : ∀ q, Tree.Leads s.tree q → q.tree.kind ≠ .selector := by
    intro q hq hk
    rw [ht] at hq
    obtain ⟨_, hin⟩ := Tree.leads_below hq (by rw [hk]; decide)
    exact matcher_flat hw (hk ▸ Tree.within_kinds hin)
  constructor
  · rintro ⟨n, more, hpath⟩
    obtain ⟨q, hq, rfl⟩ := Tree.leads_on hfirst hlead hpath
    obtain ⟨back, hb⟩ := Tree.leads_leaves hq
    have hl := congrArg size hb
    simp only [hadd] at hl
    simp only [Spot.within, hadd]
    omega
  · rintro ⟨hstart, hstop⟩
    rcases Tree.leads_apart hfirst hlead with ⟨q, hq, rfl⟩ | ⟨q, hq, rfl⟩ | ⟨mid, hm⟩ | ⟨mid, hm⟩
    · rcases Tree.leads_path hq with he | ⟨n, more, hn⟩
      · exact (hflat _ (.here _) (he ▸ hfk)).elim
      · exact ⟨n, more, congrArg _ hn⟩
    · exact (hflat q hq hfk).elim
    · have hb := ahead_size size hadd hm
      omega
    · have hb := ahead_size size hadd hm
      omega

end Size

/-- The span of a selector contains that of a matcher just if the matcher stands below it. -/
theorem selector_contains (hf : first ∈ (parse query).spots .selector)
    (hs : s ∈ (parse query).spots .matcher) :
    first.element.span.contains s.element.span = true ↔ s.Below first := by
  obtain ⟨gs, after, ht, hw⟩ := spot_node rfl (by decide) hs
  have hpos : 0 < (Token.spelled s.tree.leaves).bytes := by
    obtain ⟨c, x, more, hgs⟩ := matcher_name hw
    have hc := c.utf8Size_pos
    rw [Element.leaves_bytes, ht, hgs]
    simp only [Tree.bytes, Tree.bytesAll, Text.bytes]
    omega
  have hspan : ∀ r : Spot, r.element.span = ⟨(Token.spelled r.ahead).bytes,
      (Token.spelled r.ahead).bytes + r.tree.bytes⟩ := fun r => Element.elementAt_span _ _
  have hadd : ∀ ts us, (Token.spelled (ts ++ us)).bytes =
      (Token.spelled ts).bytes + (Token.spelled us).bytes := by
    intro ts us
    rw [Token.spelled_append, Text.bytes_append]
  rw [selector_below (fun ts => (Token.spelled ts).bytes) hadd hf hs hpos]
  simp only [Span.contains, hspan, Bool.and_eq_true, decide_eq_true_eq, Element.leaves_bytes]

/-- The element at the place of a matcher gives what the node there holds. -/
theorem spot_given (hf : first ∈ (parse query).spots .selector)
    (hs : s ∈ (parse query).spots .matcher) :
    ∃ gs m, s.tree = .node .matcher gs ∧
      (∃ after, Within (parse query).children s.ahead (.node .matcher gs) after) ∧
      Element.At query (Token.spelled s.ahead) (.node .matcher gs) s.element ∧
      Matcher.ofElement? query first.element.span s.element = some m ∧ m.Given gs ∧
      (m.place = .indexed ↔ s.Below first) := by
  obtain ⟨gs, after, ht, hw⟩ := spot_node rfl (by decide) hs
  have ha := within_at hw
  rw [show (Tree.node .matcher gs).elementAt (Token.spelled s.ahead).bytes = s.element by
    rw [Spot.element, ht]] at ha
  obtain ⟨m, hm, hgiven, hplace⟩ := ofElement_given hw ha first.element.span
  exact ⟨gs, m, ht, ⟨after, hw⟩, ha, hm, hgiven, hplace.trans (selector_contains hf hs)⟩

/-- Where each place gives one result with a property, all results have it at their places. -/
theorem filterMap_forall {α β γ : Type} {R : α → β → Prop} {give : γ → Option β} {f : α → γ} :
    (xs : List α) → (∀ x ∈ xs, ∃ y, give (f x) = some y ∧ R x y) →
    List.Forall₂ R xs ((xs.map f).filterMap give)
  | [], _ => .nil
  | x :: xs, h => by
    obtain ⟨y, hy, hr⟩ := h x (.head _)
    rw [List.map_cons, List.filterMap_cons_some hy]
    exact .cons hr (filterMap_forall xs fun z hz => h z (.tail _ hz))

/-- A query without a selector has no matchers. In any other, each matcher of the tree gives one, in
their order, and each gives what its node holds: the one name in it as the key, and the value of the
one string in it or no value. It is on an indexed label just if it stands below the first
selector. -/
theorem matchers_complete (query : Text) :
    ((parse query).spots .selector = [] → matchers query = []) ∧
      ∀ first rest, (parse query).spots .selector = first :: rest →
        List.Forall₂
          (fun s m => (∃ cs, s.tree = .node .matcher cs ∧ m.Given cs) ∧
            (m.place = .indexed ↔ s.Below first))
          ((parse query).spots .matcher) (matchers query) := by
  constructor
  · intro hnone
    simp [matchers, firstSelector_spots, hnone]
  · intro first rest hspots
    have hmem : first ∈ (parse query).spots .selector := by
      rw [hspots]
      exact .head _
    rw [matchers, first_element hspots, elements_spots query rfl]
    refine filterMap_forall _ fun s hs => ?_
    obtain ⟨gs, m, ht, -, -, hm, hgiven, hplace⟩ := spot_given hmem hs
    exact ⟨m, hm, ⟨gs, ht, hgiven⟩, hplace⟩

/-- A selector that does not close, with a matcher that has no value, and a stage with a matcher. -/
def brokenText : Text := "\x7ba=\"1\", b | drop c!=\x60x\x60".toList

theorem matchers_complete_broken :
    ∃ first rest, (parse brokenText).spots .selector = first :: rest ∧
      List.Forall₂
        (fun s m => (∃ cs, s.tree = .node .matcher cs ∧ m.Given cs) ∧
          (m.place = .indexed ↔ s.Below first))
        ((parse brokenText).spots .matcher) (matchers brokenText) := by
  have hsome : (firstSelector? brokenText).isSome = true := by decide +kernel
  rw [firstSelector_spots, Option.isSome_map, List.isSome_head?] at hsome
  obtain ⟨first, rest, hspots⟩ := List.exists_cons_of_ne_nil (by simpa using hsome)
  exact ⟨first, rest, hspots, (matchers_complete brokenText).2 first rest hspots⟩

example : (matchers brokenText).map (fun m => (m.key, m.values, m.place)) =
    [(['a'], [['1']], .indexed), (['b'], [], .indexed), (['c'], [['x']], .nonIndexed)] := by
  decide +kernel

end LogQuery
