import LogQuery.Proofs.Matchers.Between
import LogQuery.Proofs.Tree.Spaced

/-! Blanks and comments count in the operator of a matcher, and in nothing else of it. -/
namespace LogQuery

open LogQuery.Tree (Within Spot leavesAll tokens)

variable {query q r : Text}

/-- A matcher as it is read off its place. -/
structure Matcher.Shown (first s : Spot) (m : Matcher) : Prop where
  given : m.Given s.tree.children
  op : m.op = .ofText (Token.spelled s.tree.between)
  place : m.place = .indexed ↔ s.Below first
  spaced : s.tree.spaced = true → m.op = .notEqual

theorem matchers_shown {first : Spot} {rest : List Spot}
    (h : (parse query).spots .selector = first :: rest) :
    List.Forall₂ (Matcher.Shown first) ((parse query).spots .matcher) (matchers query) := by
  have hmem : first ∈ (parse query).spots .selector := by
    rw [h]
    exact .head _
  rw [matchers, first_element h, elements_spots query rfl]
  refine filterMap_forall _ fun s hs => ?_
  obtain ⟨gs, m, ht, ⟨after, hw⟩, ha, hm, hgiven, hplace⟩ := spot_given hmem hs
  refine ⟨m, hm, ?_, ?_, hplace, ?_⟩
  · rw [ht]
    exact hgiven
  · rw [ht]
    exact ofElement_between hw ha hm
  · rw [ht]
    exact ofElement_spaced hw ha hm

/-- Whether a matcher is in the first selector does not depend on blanks and comments. -/
theorem below_seen {first s : Spot} (hf : first ∈ (parse query).spots .selector)
    (hs : s ∈ (parse query).spots .matcher) :
    s.Below first ↔ first.sight.ahead.length ≤ s.sight.ahead.length ∧
      s.sight.ahead.length + s.sight.tree.leaves.length ≤
        first.sight.ahead.length + first.sight.tree.leaves.length := by
  have hadd : ∀ ts us : List Token, (Token.significant (ts ++ us)).length =
      (Token.significant ts).length + (Token.significant us).length := by
    intro ts us
    rw [Tree.significant_append, List.length_append]
  obtain ⟨gs, after, ht, hw⟩ := spot_node rfl (by decide) hs
  obtain ⟨ds, -, hd, -⟩ := spot_node rfl (by decide) hf
  have hsleaves : s.tree.strip.leaves = Token.significant s.tree.leaves :=
    Tree.leaves_strip _ (by rw [ht]; rfl)
  have hfleaves : first.tree.strip.leaves = Token.significant first.tree.leaves :=
    Tree.leaves_strip _ (by rw [hd]; rfl)
  have hpos : 0 < (Token.significant s.tree.leaves).length := by
    obtain ⟨c, x, more, rfl⟩ := matcher_name hw
    rw [ht]
    exact Nat.succ_pos _
  rw [selector_below (fun ts => (Token.significant ts).length) hadd hf hs hpos, Spot.sight,
    Spot.sight, hsleaves, hfleaves]

theorem Tree.strip_children (t : Tree) : t.strip.children = Tree.stripAll t.children := by
  cases t <;> rfl

theorem Tree.strip_unspaced {t : Tree} (h : t.spaced = false) : t.strip = t :=
  Tree.strip_eq_self t (by simpa [Tree.spaced] using h)

section Shown

variable {first first' s t : Spot} {m n : Matcher}

/-- Matchers of which the grammar sees the same differ in their operators at most. -/
theorem shown_same (hm : m.Shown first s) (hn : n.Shown first' t) (hsight : s.sight = t.sight)
    (hplace : s.Below first ↔ t.Below first') :
    (m.key, m.values, m.place) = (n.key, n.values, n.place) ∧
      (s.tree.spaced = false → t.tree.spaced = false → m = n) := by
  have hstrip : s.tree.strip = t.tree.strip := congrArg Sight.tree hsight
  have htokens : ∀ k : Kind, k.isTrivia = false →
      tokens k s.tree.children = tokens k t.tree.children := by
    intro k hk
    rw [← Tree.tokens_strip hk s.tree.children, ← Tree.tokens_strip hk t.tree.children,
      ← Tree.strip_children, ← Tree.strip_children, hstrip]
  have hkey : m.key = n.key := by
    have hnames := hm.given.key
    rw [htokens .identifier rfl, hn.given.key] at hnames
    simpa using hnames.symm
  have hvalues : m.values = n.values := by
    rw [hm.given.values, hn.given.values, htokens .string rfl]
  have hplaces : m.place = n.place := by
    have hindexed := hm.place.trans (hplace.trans hn.place.symm)
    cases hp : m.place <;> cases hq : n.place <;> simp_all
  refine ⟨by rw [hkey, hvalues, hplaces], fun hs ht => ?_⟩
  have htree : s.tree = t.tree := by
    rw [← Tree.strip_unspaced hs, hstrip, Tree.strip_unspaced ht]
  have hop : m.op = n.op := by
    rw [hm.op, hn.op, htree]
  cases m
  cases n
  simp_all

end Shown

/-- The matchers of the first selector. -/
def selected (query : Text) : List Tree :=
  match ((parse query).spots .selector).head? with
  | some first => (first.tree.spots .matcher).map Spot.tree
  | none => []

section Selected

variable {first : Spot} {rest : List Spot} {s : Spot}
  (h : (parse query).spots .selector = first :: rest)

include h

theorem first_node : ∃ cs after, first.tree = .node .selector cs ∧
    Within (parse query).children first.ahead (.node .selector cs) after :=
  spot_node rfl (by decide) (show first ∈ (parse query).spots .selector by rw [h]; exact .head _)

/-- The matchers that are found in the first selector are those at its places. -/
theorem first_matchers : (first.element.walk fun k => k = .matcher) =
    (first.tree.spots .matcher).map fun s => (first.within s).element := by
  obtain ⟨cs, after, ht, hw⟩ := first_node h
  have hproper : Tree.Proper [first.tree] := by
    rw [ht]
    exact Tree.proper_within (parse_proper query) hw
  simp only [Spot.element, Spot.within, Token.spelled_append, Text.bytes_append]
  exact Tree.walk_spots rfl first.tree _ hproper

theorem matcher_below (hs : s ∈ first.tree.spots .matcher) : ∃ gs after,
    s.tree = .node .matcher gs ∧
      Within (parse query).children (first.within s).ahead (.node .matcher gs) after := by
  obtain ⟨cs, after, ht, hw⟩ := first_node h
  rw [ht] at hs
  obtain ⟨hlead, hk⟩ := Tree.mem_spots.mp hs
  obtain ⟨_, hin⟩ := Tree.leads_below hlead (by rw [hk]; decide)
  have hw := Tree.within_trans hw hin
  generalize s.tree = t at hk hw
  cases t with
  | leaf l x =>
    obtain rfl : l = .matcher := hk
    exact absurd (within_leaf hw) (by decide)
  | node l gs =>
    obtain rfl : l = .matcher := hk
    exact ⟨gs, _, rfl, hw⟩

/-- A matcher in which no blanks and comments are gives what its own text does, and any other gives
no label filter. -/
theorem first_label (hs : s ∈ first.tree.spots .matcher) :
    LabelFilter.ofMatcher? query (first.within s).element =
      if s.tree.spaced then none else LabelFilter.ofMatcher? s.tree.text s.tree.element := by
  have hmem : (first.within s).element ∈ elements query (some [.matcher]) := by
    obtain ⟨front, back, hsplit, -⟩ := matchers_split (first_element h)
    rw [hsplit, first_matchers h]
    simp only [List.mem_append, List.mem_map]
    exact Or.inl (Or.inr ⟨s, hs, rfl⟩)
  obtain ⟨gs, after, hgs, hw⟩ := matcher_below h hs
  have ha : Element.At query (Token.spelled (first.within s).ahead) s.tree
      (first.within s).element := by
    rw [← hgs] at hw
    exact within_at hw
  cases hspaced : s.tree.spaced with
  | true =>
    rw [hgs] at ha hspaced
    exact ofMatcher_spaced hw ha hmem hspaced
  | false => exact Element.ofMatcher_at ha

end Selected

/-- The label filters of a query are read off the matchers of its first selector. -/
theorem labels_selected (query : Text) (types : LabelTypes) :
    (drilldown query types).labels = (selected query).filterMap fun t =>
      if t.spaced then none else LabelFilter.ofMatcher? t.text t.element := by
  cases hspots : (parse query).spots .selector with
  | nil =>
    have hnone : firstSelector? query = none := by simp [firstSelector_spots, hspots]
    simp [drilldown, hnone, selected, hspots]
  | cons first rest =>
    have hfirst := first_element hspots
    have hlabels : (drilldown query types).labels =
        (first.element.walk fun k => k = .matcher).filterMap (LabelFilter.ofMatcher? query) := by
      rw [drilldown, hfirst]
      exact ofSelector_text hfirst
    simp only [hlabels, selected, hspots, List.head?_cons]
    rw [first_matchers hspots, List.filterMap_map, List.filterMap_map]
    exact List.filterMap_congr fun s hs => first_label hspots hs

/-- Items at the same place of two lists that go together. -/
theorem forall_at {α β : Type} {R : α → β → Prop} {xs : List α} {ys : List β} {x : α} {i : Nat}
    (h : List.Forall₂ R xs ys) (hx : xs[i]? = some x) : ∃ y, ys[i]? = some y ∧ R x y := by
  obtain ⟨hi, rfl⟩ := List.getElem?_eq_some_iff.mp hx
  have hj : i < ys.length := h.length_eq ▸ hi
  exact ⟨ys[i], List.getElem?_eq_getElem hj, (List.forall₂_iff_get.mp h).2 i hi hj⟩

/-- The place that a matcher is read off. -/
theorem matchers_at {i : Nat} {m : Matcher} (h : (matchers query)[i]? = some m) :
    ∃ first s, ((parse query).spots .selector).head? = some first ∧
      ((parse query).spots .matcher)[i]? = some s ∧ m.Shown first s := by
  cases hspots : (parse query).spots .selector with
  | nil => simp [matchers, firstSelector_spots, hspots] at h
  | cons first rest =>
    obtain ⟨s, hs, hm⟩ := forall_at (matchers_shown hspots).flip h
    exact ⟨first, s, rfl, hs, hm⟩

section Same

variable (h : Token.significant (Token.lex q) = Token.significant (Token.lex r))

include h

theorem spots_sights {k : Kind} (hk : k.isTrivia = false) :
    ((parse q).spots k).map Spot.sight = ((parse r).spots k).map Spot.sight := by
  refine Tree.spots_same hk ?_
  rw [parse_strip, parse_strip, h]

/-- A matcher of the one query stands where one of the other does. -/
theorem matchers_paired {i : Nat} {m : Matcher} (hm : (matchers q)[i]? = some m) :
    ∃ n s t, (matchers r)[i]? = some n ∧ ((parse q).spots .matcher)[i]? = some s ∧
      ((parse r).spots .matcher)[i]? = some t ∧
      (m.key, m.values, m.place) = (n.key, n.values, n.place) ∧
      (s.tree.spaced = false → t.tree.spaced = false → m = n) := by
  obtain ⟨first, s, hfirst, hs, hshown⟩ := matchers_at hm
  obtain ⟨other, hother, hseen⟩ : ∃ other, ((parse r).spots .selector).head? = some other ∧
      other.sight = first.sight := by
    have hheads := congrArg List.head? (spots_sights h (k := .selector) rfl)
    rw [List.head?_map, List.head?_map, hfirst] at hheads
    obtain ⟨other, hother, hseen⟩ := Option.map_eq_some_iff.mp hheads.symm
    exact ⟨other, hother, hseen⟩
  obtain ⟨t, ht, hsight⟩ : ∃ t, ((parse r).spots .matcher)[i]? = some t ∧
      t.sight = s.sight := by
    have hplaces := congrArg (·[i]?) (spots_sights h (k := .matcher) rfl)
    simp only [List.getElem?_map, hs] at hplaces
    obtain ⟨t, ht, hsight⟩ := Option.map_eq_some_iff.mp hplaces.symm
    exact ⟨t, ht, hsight⟩
  obtain ⟨rest, hspots⟩ := List.head?_eq_some_iff.mp hother
  obtain ⟨n, hn, hshown'⟩ := forall_at (matchers_shown hspots) ht
  have hplace : s.Below first ↔ t.Below other := by
    rw [below_seen (List.mem_of_mem_head? hfirst) (List.mem_of_getElem? hs),
      below_seen (List.mem_of_mem_head? hother) (List.mem_of_getElem? ht), hsight, hseen]
  exact ⟨n, s, t, hn, hs, ht, shown_same hshown hshown' hsight.symm hplace⟩

/-- The first selectors hold the same matchers. -/
theorem selected_strip : (selected q).map Tree.strip = (selected r).map Tree.strip := by
  have hheads := congrArg List.head? (spots_sights h (k := .selector) rfl)
  rw [List.head?_map, List.head?_map] at hheads
  unfold selected
  cases hq : ((parse q).spots .selector).head? with
  | none =>
    rw [hq] at hheads
    rw [Option.map_eq_none_iff.mp hheads.symm]
  | some first =>
    rw [hq] at hheads
    obtain ⟨other, hother, hseen⟩ := Option.map_eq_some_iff.mp hheads.symm
    have hspots := Tree.spots_same (k := .matcher) rfl (congrArg Sight.tree hseen)
    have hstrip := congrArg (List.map Sight.tree) hspots.symm
    simp only [List.map_map] at hstrip
    simp only [hother, List.map_map]
    exact hstrip

end Same

/-- A blank or a comment is right behind the name of a matcher, or anywhere in one with a value. -/
def Tree.SetOff (t : Tree) : Prop :=
  (∃ l ∈ t.leaves.tail.head?, l.isTrivia = true) ∨
    t.spaced = true ∧ ∃ l ∈ t.leaves, l.kind = .string

theorem Tree.setOff_spaced {t : Tree} (h : t.SetOff) : t.spaced = true := by
  rcases h with ⟨l, hl, ht⟩ | ⟨hs, -⟩
  · exact List.any_eq_true.mpr ⟨l, List.mem_of_mem_tail (List.mem_of_mem_head? hl), ht⟩
  · exact hs

/-- The label filters of the matchers of the first selector, each of them written without blanks
and comments. -/
def bareLabels (query : Text) : List (Option LabelFilter) :=
  ((selected query).map Tree.strip).map fun t => LabelFilter.ofMatcher? t.text t.element

/-- The label filters of a query are those that are listed for the matchers of its first selector,
but for the matchers with blanks or comments in them. -/
def GivesLabels (query : Text) (types : LabelTypes) (filters : List (Option LabelFilter)) : Prop :=
  filters.length = (selected query).length ∧
    (drilldown query types).labels = ((selected query).zip filters).filterMap fun (t, f) =>
      if t.spaced then none else f

theorem givesLabels_bare (query : Text) (types : LabelTypes) :
    GivesLabels query types (bareLabels query) := by
  refine ⟨by simp [bareLabels], ?_⟩
  have hzip : ∀ ts : List Tree, ts.filterMap (fun t =>
        if t.spaced then none else LabelFilter.ofMatcher? t.text t.element) =
      (ts.zip ((ts.map Tree.strip).map fun t =>
        LabelFilter.ofMatcher? t.text t.element)).filterMap fun (t, f) =>
          if t.spaced then none else f := by
    intro ts
    induction ts with
    | nil => rfl
    | cons t ts ih =>
      simp only [List.map_cons, List.zip_cons_cons, List.filterMap_cons, ih]
      cases ht : t.spaced with
      | true => simp
      | false => simp [Tree.strip_unspaced ht]
  rw [labels_selected, hzip, bareLabels]

/-- Two queries with the same tokens besides blanks and comments have as many matchers, with the
same names, values and places. Matchers at the same place with no blanks and comments in them are
equal, operators and all. Where these stand between name and value, or right behind a name, they
are taken for a part of the operator, so that it is no plain `=`. The matchers of the first selector
give the same label filters when they are written without blanks and comments, and each query has
those of its matchers that are written so. -/
theorem matchers_layout (h : Token.significant (Token.lex q) = Token.significant (Token.lex r))
    (types : LabelTypes) :
    (matchers q).map (fun m => (m.key, m.values, m.place)) =
        (matchers r).map (fun m => (m.key, m.values, m.place)) ∧
      (∀ (i : Nat) (s t : Spot), ((parse q).spots .matcher)[i]? = some s →
        ((parse r).spots .matcher)[i]? = some t → s.tree.spaced = false → t.tree.spaced = false →
        (matchers q)[i]? = (matchers r)[i]?) ∧
      (∀ query ∈ [q, r], ∀ (i : Nat) (s : Spot) (m : Matcher),
        ((parse query).spots .matcher)[i]? = some s → (matchers query)[i]? = some m →
        s.tree.SetOff → m.op = .notEqual) ∧
      ∀ query ∈ [q, r], GivesLabels query types (bareLabels q) := by
  have hnone : ∀ i : Nat, (matchers q)[i]? = none → (matchers r)[i]? = none := by
    intro i hq
    by_contra hr
    obtain ⟨n, hn⟩ := Option.ne_none_iff_exists'.mp hr
    obtain ⟨m, -, -, hm, -⟩ := matchers_paired h.symm hn
    rw [hq] at hm
    cases hm
  refine ⟨?_, ?_, ?_, ?_⟩
  · apply List.ext_getElem?
    intro i
    rw [List.getElem?_map, List.getElem?_map]
    cases hm : (matchers q)[i]? with
    | none => rw [hnone i hm]
    | some m =>
      obtain ⟨n, s, t, hn, -, -, hsame, -⟩ := matchers_paired h hm
      rw [hn, Option.map_some, Option.map_some, hsame]
  · intro i s t hs ht hsq htr
    cases hm : (matchers q)[i]? with
    | none => rw [hnone i hm]
    | some m =>
      obtain ⟨n, s', t', hn, hs', ht', -, hsame⟩ := matchers_paired h hm
      obtain rfl := Option.some.inj (hs.symm.trans hs')
      obtain rfl := Option.some.inj (ht.symm.trans ht')
      rw [hn, hsame hsq htr]
  · intro query _ i s m hs hm hset
    obtain ⟨first, s', -, hs', hshown⟩ := matchers_at hm
    obtain rfl := Option.some.inj (hs.symm.trans hs')
    exact hshown.spaced (Tree.setOff_spaced hset)
  · intro query hquery
    rcases List.mem_pair.mp hquery with rfl | rfl
    · exact givesLabels_bare _ types
    · rw [bareLabels, selected_strip h]
      exact givesLabels_bare _ types

def tightText : Text := "\x7ba=\"b\",c!=\"d\"\x7d|drop e=\"f\"".toList

/-- The same query, with blanks and a comment at two of its operators. -/
def airyText : Text := "\x7ba = \"b\", c!=\"d\" \x7d | drop e=# like\n\"f\"".toList

theorem matchers_layout_airy :
    Token.significant (Token.lex tightText) = Token.significant (Token.lex airyText) ∧
      (matchers tightText).map (fun m => (m.key, m.values, m.place)) =
        (matchers airyText).map (fun m => (m.key, m.values, m.place)) ∧
      ∀ query ∈ [tightText, airyText], GivesLabels query [] (bareLabels tightText) := by
  have h : Token.significant (Token.lex tightText) = Token.significant (Token.lex airyText) := by
    decide +kernel
  obtain ⟨hsame, -, -, hlabels⟩ := matchers_layout h []
  exact ⟨h, hsame, hlabels⟩

/-- Blanks at an operator make another matcher of it, and take a label filter away. -/
theorem matchers_layout_differ :
    ¬ ∀ q r : Text, Token.significant (Token.lex q) = Token.significant (Token.lex r) →
      ∀ types, matchers q = matchers r ∧
        (drilldown q types).labels = (drilldown r types).labels := by
  intro hall
  have h : Token.significant (Token.lex "\x7ba=\"b\"\x7d".toList) =
      Token.significant (Token.lex "\x7ba = \"b\"\x7d".toList) := by
    decide +kernel
  have hsame := (hall _ _ h []).1
  have hdiffer : matchers "\x7ba=\"b\"\x7d".toList ≠ matchers "\x7ba = \"b\"\x7d".toList := by
    decide +kernel
  exact hdiffer hsame

example : (matchers airyText).map Matcher.op = [.notEqual, .notEqual, .notEqual] ∧
    (drilldown airyText []).labels = [⟨['c'], .notEqual, ['d'], .indexed⟩] := by
  decide +kernel

end LogQuery
