import LogQuery.Proofs.Element.Moved
import LogQuery.Proofs.Labels.Alone
import LogQuery.Proofs.Labels.Matcher

/-! Label filters are read from the text of the first selector alone, and are those that stand in
the tree of the whole query. -/
namespace LogQuery

open LogQuery.Tree (Within)

variable {query : Text} {e : Element}

theorem first_selector {selector : Element} (h : firstSelector? query = some selector) :
    selector ∈ (rootElement query).walk fun k => k = .selector := by
  rw [firstSelector?, elements_walk] at h
  exact List.mem_of_mem_head? h

theorem filterMap_matchers {es : List Element} {us : List Tree}
    (h : List.Forall₂ (Element.Located query) es us) :
    es.filterMap (LabelFilter.ofMatcher? query) =
      us.filterMap fun u => LabelFilter.ofMatcher? u.text u.element := by
  induction h with
  | nil => rfl
  | cons he _ ih =>
    obtain ⟨before, ha⟩ := he
    rw [List.filterMap_cons, List.filterMap_cons, Element.ofMatcher_at ha, ih]

section Selector

variable {selector : Element}

/-- Reading the text of the first selector alone gives what its matchers say in the query. -/
theorem ofSelector_text (h : firstSelector? query = some selector) :
    LabelFilter.ofSelector (selector.span.text query) =
      (selector.walk fun k => k = .matcher).filterMap (LabelFilter.ofMatcher? query) := by
  obtain ⟨before, cs, after, hw, ha⟩ := elements_node rfl (by decide) (first_selector h)
  have htext : selector.span.text query = Tree.textAll cs := Element.at_text ha
  have hwalk : elements (Tree.textAll cs) (some [.matcher]) =
      ((Tree.node .selector cs).elementAt 0).walk fun k => k = .matcher := by
    rw [elements_walk, root_walk (by decide), root_children, parse_selector hw]
    exact selectorTrees_walk (by decide) (by decide) cs 0
  obtain ⟨rest, hq⟩ := ha.fits
  have hself : Tree.textAll cs = [] ++ (Tree.node .selector cs).text ++ [] := by simp [Tree.text]
  have halone := @Element.walk_located _ (fun k => k = .matcher) _ _ _ hself
  have hplace := @Element.walk_located _ (fun k => k = .matcher) _ _ _ hq
  rw [← ha.element] at hplace
  rw [htext, LabelFilter.ofSelector, hwalk, filterMap_matchers hplace]
  exact filterMap_matchers halone

theorem selector_span (h : firstSelector? query = some selector)
    (he : e ∈ selector.walk fun k => k = .matcher) : selector.span.contains e.span = true := by
  obtain ⟨before, cs, after, hw, ha⟩ := elements_node rfl (by decide) (first_selector h)
  rw [ha.element] at he ⊢
  have hs := Element.walk_span _ _ he
  rw [Element.elementAt_span]
  simpa [Span.contains] using hs

/-- The matchers of a query: those ahead of the first selector, those in it, and those behind. Only
the second lie within its span. -/
theorem matchers_split (h : firstSelector? query = some selector) :
    ∃ front back, elements query (some [.matcher]) =
        front ++ (selector.walk fun k => k = .matcher) ++ back ∧
      ∀ e ∈ front ++ back, selector.span.contains e.span = false := by
  obtain ⟨front, back, hw, hf, hb⟩ :=
    Element.walk_split (fun k => k = .matcher) (parse query) 0 (first_selector h)
  rw [elements_walk]
  refine ⟨front, back, hw, ?_⟩
  intro e he
  have hmem : e ∈ elements query (some [.matcher]) := by
    rw [elements_walk]
    have hsub : front ++ back ⊆ (rootElement query).walk fun k => k = .matcher := by
      rw [show rootElement query = (parse query).elementAt 0 from rfl, hw]
      intro a ha
      simp only [List.mem_append] at ha ⊢
      tauto
    exact hsub he
  have hspan := matcher_span hmem
  have hout : e.span.stop ≤ selector.span.start ∨ selector.span.stop ≤ e.span.start := by
    rcases List.mem_append.mp he with he | he
    · refine (hf e he).imp_right fun hin => ?_
      -- A selector is in no matcher.
      exfalso
      obtain ⟨before, gs, after, hm, ha⟩ := mem_matchers hmem
      rw [ha.element] at hin
      obtain ⟨_, u, _, hu, hk, _⟩ := Element.walkAll_within gs _ hin
      have hkind := Tree.within_kinds hu
      rw [of_decide_eq_true hk] at hkind
      exact matcher_flat hm hkind
    · exact Or.inr (hb e he)
  simp only [Span.contains, Bool.and_eq_false_iff, decide_eq_false_iff_not]
  omega

theorem place_eq {m : Matcher} (h : Matcher.ofElement? query selector.span e = some m) :
    m.place = if selector.span.contains e.span then .indexed else .nonIndexed := by
  obtain ⟨name, -, rfl⟩ := Option.map_eq_some_iff.mp h
  rfl

/-- The matchers on indexed labels are those in the first selector. -/
theorem matchers_indexed (h : firstSelector? query = some selector) :
    (matchers query).filter (fun m => m.place = .indexed) =
      (selector.walk fun k => k = .matcher).filterMap
        (Matcher.ofElement? query selector.span) := by
  obtain ⟨front, back, hw, hout⟩ := matchers_split h
  have hnone : ∀ es : List Element, (∀ e ∈ es, selector.span.contains e.span = false) →
      (es.filterMap (Matcher.ofElement? query selector.span)).filter
        (fun m => m.place = .indexed) = [] := by
    intro es hes
    rw [List.filter_eq_nil_iff]
    intro m hm
    obtain ⟨e, he, hm⟩ := List.mem_filterMap.mp hm
    simp [place_eq hm, hes e he]
  have hall : ((selector.walk fun k => k = .matcher).filterMap
      (Matcher.ofElement? query selector.span)).filter (fun m => m.place = .indexed) =
      (selector.walk fun k => k = .matcher).filterMap
        (Matcher.ofElement? query selector.span) := by
    rw [List.filter_eq_self]
    intro m hm
    obtain ⟨e, he, hm⟩ := List.mem_filterMap.mp hm
    simp [place_eq hm, selector_span h he]
  simp only [matchers, h, hw, List.filterMap_append, List.filter_append, hall]
  rw [hnone front fun e he => hout e (List.mem_append_left _ he),
    hnone back fun e he => hout e (List.mem_append_right _ he), List.nil_append, List.append_nil]

end Selector

namespace Comparison

/-- A plain `=` is the one sign that a matcher takes for equality. -/
theorem equal_iff (op : Comparison) :
    op = .equal ↔ Matcher.Op.ofText op.symbol.toList = .equal := by
  cases op <;> decide

end Comparison

/-- A filter that is written as a matcher: its value is there and not empty, and between the name
and the value there is its operator and nothing else. -/
def LabelFilter.Written (query : Text) (matcher : Element) (f : LabelFilter) : Prop :=
  ∃ name string, matcher.first? .identifier = some name ∧ matcher.first? .string = some string ∧
    query.slice? name.span.stop string.span.start = some f.operator.symbol.toList ∧
    f.operator ∈ [.equal, .notEqual, .regexEqual, .regexNotEqual] ∧
    f.key = name.span.text query ∧ f.value = string.span.unquoted query ∧ f.value ≠ [] ∧
    f.labelType = .indexed

theorem isMatcher_iff (op : Comparison) :
    op.isMatcher = true ↔ op ∈ [.equal, .notEqual, .regexEqual, .regexNotEqual] := by
  cases op <;> decide

theorem written_iff (h : e ∈ elements query (some [.matcher])) (f : LabelFilter) :
    LabelFilter.ofMatcher? query e = some f ↔ f.Written query e := by
  constructor
  · intro hf
    unfold LabelFilter.ofMatcher? at hf
    split at hf
    · next name string hname hstring =>
      split at hf
      · next op hop =>
        obtain ⟨between, hslice, hop⟩ := Option.map_eq_some_iff.mp hop
        simp only [Option.ite_none_right_eq_some, Bool.and_eq_true, Bool.not_eq_true',
          List.isEmpty_eq_false_iff] at hf
        obtain ⟨⟨⟨hm, _⟩, hv⟩, hf⟩ := hf
        cases hf
        refine ⟨name, string, hname, hstring, ?_, (isMatcher_iff op).mp hm, rfl, rfl, hv, rfl⟩
        rw [hslice, Comparison.ofText_ok hop]
      · cases hf
    · cases hf
  · rintro ⟨name, string, hname, hstring, hslice, hop, hk, hv, hne, ht⟩
    have hkey := matcher_key h hname
    have hm := (isMatcher_iff f.operator).mpr hop
    rw [hv] at hne
    simp only [LabelFilter.ofMatcher?, hname, hstring, hslice, Option.map_some,
      Comparison.ofText_symbol, hm]
    obtain ⟨key, op, value, labelType⟩ := f
    simp_all

/-- A filter and the matcher that is read off the same element. -/
theorem written_matcher (h : e ∈ elements query (some [.matcher])) (selector : Span)
    {f : LabelFilter} {m : Matcher} (hf : f.Written query e)
    (hm : Matcher.ofElement? query selector e = some m) :
    m.key = f.key ∧ m.values = [f.value] ∧ (f.operator = .equal ↔ m.op = .equal) := by
  obtain ⟨name, string, hname, hstring, hslice, -, hk, hv, -, -⟩ := hf
  have hall := matcher_values h hstring
  simp only [Matcher.ofElement?, hname, hall, Option.map_some, List.head?_cons, Option.getD_some,
    hslice, Option.some.injEq] at hm
  subst hm
  exact ⟨hk.symm, by simp [hv], f.operator.equal_iff⟩

/-- The label filters of a query, which are read from the text of its first selector alone, are
those that the same rule gives on the matchers in that selector in the tree of the query, in their
order: a matcher gives a filter just if one is written there. The matchers on indexed labels are
read off the same elements. Where an element gives a filter, its matcher has the same key, the one
value of the filter, and a plain `=` just if the filter has. -/
theorem drilldown_labels (query : Text) (types : LabelTypes) (selector : Element)
    (h : firstSelector? query = some selector) :
    (drilldown query types).labels =
        (selector.walk fun k => k = .matcher).filterMap (LabelFilter.ofMatcher? query) ∧
      (matchers query).filter (fun m => m.place = .indexed) =
        (selector.walk fun k => k = .matcher).filterMap
          (Matcher.ofElement? query selector.span) ∧
      ∀ e ∈ selector.walk fun k => k = .matcher,
        (∀ f, LabelFilter.ofMatcher? query e = some f ↔ f.Written query e) ∧
          ∃ m, Matcher.ofElement? query selector.span e = some m ∧
            ∀ f, LabelFilter.ofMatcher? query e = some f →
              m.key = f.key ∧ m.values = [f.value] ∧ (f.operator = .equal ↔ m.op = .equal) := by
  refine ⟨?_, matchers_indexed h, ?_⟩
  · rw [drilldown, h]
    exact ofSelector_text h
  · intro e he
    have hmem : e ∈ elements query (some [.matcher]) := by
      obtain ⟨front, back, hw, -⟩ := matchers_split h
      rw [hw]
      simp [he]
    refine ⟨written_iff hmem, ?_⟩
    obtain ⟨m, hm⟩ := Option.isSome_iff_exists.mp (matcher_named query selector.span e hmem)
    refine ⟨m, hm, fun f hf => ?_⟩
    exact written_matcher hmem selector.span ((written_iff hmem f).mp hf) hm

/-- A selector that does not close, in a call: its first matcher is written as a filter, the others
have no value or a blank around their operator. -/
def unclosedText : Text := "rate(\x7ba=\"x\", b!=\"\", c =~ \"y\" [5m])".toList

theorem drilldown_labels_unclosed :
    ∃ selector, firstSelector? unclosedText = some selector ∧
      (drilldown unclosedText []).labels =
        (selector.walk fun k => k = .matcher).filterMap
          (LabelFilter.ofMatcher? unclosedText) := by
  have hsome : (firstSelector? unclosedText).isSome = true := by decide +kernel
  obtain ⟨selector, h⟩ := Option.isSome_iff_exists.mp hsome
  exact ⟨selector, h, (drilldown_labels unclosedText [] selector h).1⟩

example : (drilldown unclosedText []).labels = [⟨['a'], .equal, ['x'], .indexed⟩] := by
  decide +kernel

end LogQuery
