import LogQuery.Proofs.Element.Seen
import LogQuery.Proofs.Matchers

/-! The service that a query names is the value of one of its matchers, although the one is read off
the children of a matcher and the other is searched for in all of it. -/
namespace LogQuery

open LogQuery.Tree (Within tokens stripAll leavesAll)

section Search

variable {α β γ : Type} {R : β → γ → Prop} {give : α → Option β} {get : α → Option γ}
  {p : β → Bool}

/-- Where each place gives a result, and something is got from it just if the result passes a test,
the first result that passes stands where the first thing is got. -/
theorem find_findSome : (xs : List α) →
    (∀ x ∈ xs, ∃ y, give x = some y ∧
      ((p y = true ∧ ∃ z, get x = some z ∧ R y z) ∨ (p y = false ∧ get x = none))) →
    Option.Rel R ((xs.filterMap give).find? p) (xs.findSome? get)
  | [], _ => .none
  | x :: xs, h => by
    obtain ⟨y, hgive, hget⟩ := h x (.head _)
    rw [List.filterMap_cons_some hgive]
    rcases hget with ⟨hp, z, hz, hr⟩ | ⟨hp, hz⟩
    · rw [List.find?_cons_of_pos hp, List.findSome?_cons_of_isSome (by rw [hz]; rfl), hz]
      exact .some hr
    · rw [List.find?_cons_of_neg (by simp [hp]), List.findSome?_cons_of_isNone (by rw [hz]; rfl)]
      exact find_findSome xs fun a ha => h a (.tail x ha)

end Search

variable {query label : Text} {before after : List Token} {gs ds : List Tree} {e : Element}
  {t : Tree} {k : Kind} {l : Token}

/-- Children that go together, one of them the first of its kind. -/
theorem find_listed {es : List Element} {ts : List Tree} (h : List.Forall₂ (Seen query) es ts) :
    Option.Rel (Seen query) (es.find? fun e => e.kind = k) (ts.find? fun t => t.kind = k) := by
  induction h with
  | nil => exact .none
  | cons he _ ih =>
    rw [List.find?_cons, List.find?_cons, seen_kind he]
    split
    · exact .some he
    · exact ih

theorem child_seen (h : Seen query e t) (k : Kind) :
    Option.Rel (Seen query) (e.child? k)
      ((Tree.listed t.children).find? fun c => c.kind = k) :=
  find_listed (seen_children h)

theorem seen_text (h : Seen query e (.ofToken l)) : e.span.text query = l.text := by
  obtain ⟨before, ha⟩ := seen_token h
  exact Element.at_text ha

/-- The text of the first child of a kind, where that is a token. -/
theorem child_text (h : Seen query e t) (k : Kind) {l : Option Token}
    (hl : ((Tree.listed t.children).find? fun c => c.kind = k) = l.map .ofToken) :
    (e.child? k).map (·.span.text query) = l.map Token.text := by
  have hchild := child_seen h k
  rw [hl] at hchild
  generalize e.child? k = a at hchild
  cases l with
  | none =>
    cases hchild
    rfl
  | some l =>
    cases hchild with
    | some hs => exact congrArg some (seen_text hs)

/-- The name and the string of a matcher are children of it: none is in an error node. -/
theorem matcherShape_find (hm : Grammar.MatcherShape ds) (hk : k ∈ [Kind.identifier, .string]) :
    ((Tree.listed ds).find? fun c => c.kind = k) = (tokens k ds).head?.map .ofToken := by
  obtain ⟨name, op, stray, value, hm⟩ := hm
  have hop : op.kind.isNamed = true ∧ op.kind ≠ k := by
    have hkinds : ∀ l ∈ .error :: Grammar.matcherOps,
        l.isNamed = true ∧ ∀ k ∈ [Kind.identifier, .string], l ≠ k := by decide
    obtain ⟨hn, hne⟩ := hkinds _ (Tree.expected_kind hm.op)
    exact ⟨hn, hne k hk⟩
  have hstray : (Tree.listed stray).find? (fun c => c.kind = k) = none := by
    rcases hm.stray with rfl | ⟨us, -, rfl⟩
    · rfl
    · have hne : Kind.error ≠ k := by
        rintro rfl
        revert hk
        decide
      rw [Tree.listed_named rfl, List.find?_cons_of_neg (by simp [Tree.kind, hne])]
      rfl
  have htokens : k ∉ .unknown :: Grammar.matcherOps :=
    (by decide : ∀ k ∈ [Kind.identifier, .string], k ∉ .unknown :: Grammar.matcherOps) k hk
  rw [Tree.matcherParts_tokens hm htokens, hm.children, Tree.listed_named rfl,
    Tree.listed_named hop.1]
  rcases List.mem_pair.mp hk with rfl | rfl
  · rfl
  · have hname : tokens .string [.leaf .identifier name] = [] := rfl
    rw [hname, List.nil_append, List.find?_cons_of_neg (by simp [Tree.kind]),
      List.find?_cons_of_neg (by simpa using hop.2), Tree.listed, List.filter_append,
      List.find?_append, ← Tree.listed, hstray, Option.none_or]
    rcases hm.value with ⟨l, hl, x, rfl⟩ | rfl
    · obtain rfl := List.mem_singleton.mp hl
      rfl
    · rfl

/-- What a matcher of a query gives, and the value that it has for a label: that is its string just
if the label is its name. -/
theorem labelValue_given (he : e ∈ elements query (some [.matcher])) (selector : Span)
    (label : Text) : ∃ (m : Matcher) (gs : List Tree),
      Matcher.ofElement? query selector e = some m ∧ m.Given gs ∧
        labelValue? query label e =
          if m.key = label then (tokens .string gs).head?.map Token.text else none := by
  obtain ⟨before, gs, after, hw, ha⟩ := mem_matchers he
  obtain ⟨m, hm, hgiven, -⟩ := ofElement_given hw ha selector
  refine ⟨m, gs, hm, hgiven, ?_⟩
  have hseen : Seen query e (.node .matcher (stripAll gs)) :=
    ⟨_, before, .node .matcher gs, after, hw, rfl, ha.element, rfl⟩
  have hshape : Grammar.MatcherShape (stripAll gs) := by
    obtain ⟨ahead, ds, behind, hf⟩ := parse_filled hw
    rw [hf.children, Tree.stripAll_fillAll, Tree.stripAll_eq_self ds (stripped_solid hf.origin)]
    exact (stripped_sites query ahead _ ds behind hf.origin).matcher rfl
  have hname := child_text hseen .identifier (matcherShape_find hshape (.head _))
  have hstring := child_text hseen .string (matcherShape_find hshape (.tail _ (.head _)))
  rw [Tree.children, Tree.tokens_strip rfl, hgiven.key] at hname
  rw [Tree.children, Tree.tokens_strip rfl] at hstring
  rw [labelValue?]
  cases hn : e.child? .identifier with
  | none =>
    rw [hn] at hname
    cases hname
  | some name =>
    rw [hn] at hname
    have hkey : name.span.text query = m.key := Option.some.inj hname
    rw [← hstring]
    cases e.child? .string with
    | none => simp
    | some value => simp [hkey]

/-- A matcher on a label, with a value. -/
def Matcher.onLabel (label : Text) (m : Matcher) : Bool := m.key = label && !m.values.isEmpty

theorem onLabel_iff {m : Matcher} : m.onLabel label = true ↔ m.key = label ∧ m.values ≠ [] := by
  simp [Matcher.onLabel]

/-- A text is a value in quotes. -/
def Quotes (value text : Text) : Prop := ∃ q ∈ Token.quotes, text = q :: (value ++ [q])

/-- Each matcher that names the label has its one value in quotes, and no other has any. -/
theorem labelValue_names (he : e ∈ elements query (some [.matcher])) (selector : Span)
    (label : Text) : ∃ m, Matcher.ofElement? query selector e = some m ∧
      ((m.onLabel label = true ∧ ∃ t, labelValue? query label e = some t ∧
          ∃ v, m.values = [v] ∧ Quotes v t) ∨
        (m.onLabel label = false ∧ labelValue? query label e = none)) := by
  obtain ⟨m, gs, hm, hgiven, hvalue⟩ := labelValue_given he selector label
  refine ⟨m, hm, ?_⟩
  have hvalues := hgiven.values
  have hfew := hgiven.few
  have hquoted := hgiven.quoted
  rw [hvalue]
  by_cases hkey : m.key = label
  · rw [if_pos hkey]
    generalize tokens .string gs = ts at hvalues hfew hquoted
    rcases ts with _ | ⟨l, _ | ⟨l', ts⟩⟩
    · refine Or.inr ⟨?_, rfl⟩
      simp [Matcher.onLabel, hvalues]
    · refine Or.inl ⟨onLabel_iff.mpr ⟨hkey, by simp [hvalues]⟩, l.text, rfl, l.value, hvalues, ?_⟩
      exact hquoted l (.head _)
    · simp at hfew
  · rw [if_neg hkey]
    exact Or.inr ⟨by simp [Matcher.onLabel, hkey], rfl⟩

/-- In quotes, which take one byte each, the value is all but the first and the last byte. -/
theorem quotes_slice {v t : Text} (h : Quotes v t) : t.slice? 1 (t.bytes - 1) = some v := by
  obtain ⟨q, hq, rfl⟩ := h
  have hsize := Token.quote_size hq
  have hone : Text.bytes [q] = 1 := by simp [Text.bytes, hsize]
  have hall : Text.bytes (q :: (v ++ [q])) - 1 = 1 + v.bytes := by
    rw [Text.bytes, Text.bytes_append, hone, hsize]
    omega
  have hs := Text.slice_append [q] v [q]
  rw [hone] at hs
  rw [hall]
  exact hs

theorem elements_nonempty (hroot : k ≠ .logQl) (h : hasElement query k = true) :
    elements query (some [k]) ≠ [] := by
  rw [hasElement, Bool.and_eq_true, Tree.holds, List.contains_iff_mem, parse_children] at h
  obtain ⟨hk, h⟩ := h
  rcases List.mem_cons.mp h with h | h
  · exact (hroot h).elim
  · obtain ⟨before, u, after, hw, hu⟩ := Tree.kinds_within _ h
    exact List.ne_nil_of_mem (elements_within hw hu hk)

/-- In a query with a selector a service is found under a label just if there is a matcher on that
label with a value. What is found is the value of the first such matcher, with its quotes: it is
that value once its first and its last byte are taken away. -/
theorem serviceName_matcher (query label : Text) (h : hasElement query .selector = true) :
    ((serviceName? query label).isSome = true ↔
        ∃ m ∈ matchers query, m.key = label ∧ m.values ≠ []) ∧
      ∀ t, serviceName? query label = some t →
        ∃ m v, (matchers query).find? (fun m => m.key = label ∧ m.values ≠ []) = some m ∧
          m.values = [v] ∧ t.slice? 1 (t.bytes - 1) = some v ∧
          ∃ q ∈ Token.quotes, t = q :: (v ++ [q]) := by
  obtain ⟨selector, rest, hsel⟩ := List.exists_cons_of_ne_nil (elements_nonempty (by decide) h)
  have hmatchers : matchers query = (elements query (some [.matcher])).filterMap
      (Matcher.ofElement? query selector.span) := by
    rw [matchers, firstSelector?, hsel]
    rfl
  have hfind : Option.Rel (fun m t => ∃ v, Matcher.values m = [v] ∧ Quotes v t)
      ((matchers query).find? (Matcher.onLabel label)) (serviceName? query label) := by
    rw [hmatchers, serviceName?]
    exact find_findSome _ fun e he => labelValue_names he selector.span label
  have hp : (matchers query).find? (fun m => m.key = label ∧ m.values ≠ []) =
      (matchers query).find? (Matcher.onLabel label) := by
    congr 1
    funext m
    rw [Bool.eq_iff_iff, onLabel_iff, decide_eq_true_iff]
  rw [hp]
  constructor
  · have hsome : (serviceName? query label).isSome =
        ((matchers query).find? (Matcher.onLabel label)).isSome := by
      generalize serviceName? query label = text at hfind
      generalize (matchers query).find? (Matcher.onLabel label) = found at hfind
      cases hfind <;> rfl
    rw [hsome, List.find?_isSome]
    exact exists_congr fun m => and_congr_right fun _ => onLabel_iff
  · intro t ht
    rw [ht] at hfind
    generalize (matchers query).find? (Matcher.onLabel label) = found at hfind
    cases hfind with
    | some hr =>
      obtain ⟨v, hv, hquotes⟩ := hr
      exact ⟨_, v, rfl, hv, quotes_slice hquotes, hquotes⟩

/-- The first matcher on the name has no value yet. -/
def halfTyped : Text := "\x7bapp=, app=\"web\", job!~`a|b`\x7d".toList

theorem serviceName_matcher_half :
    hasElement halfTyped .selector = true ∧
      ((serviceName? halfTyped "app".toList).isSome = true ↔
        ∃ m ∈ matchers halfTyped, m.key = "app".toList ∧ m.values ≠ []) ∧
      ∀ t, serviceName? halfTyped "app".toList = some t →
        ∃ m v, (matchers halfTyped).find? (fun m => m.key = "app".toList ∧ m.values ≠ []) =
            some m ∧ m.values = [v] ∧ t.slice? 1 (t.bytes - 1) = some v ∧
          ∃ q ∈ Token.quotes, t = q :: (v ++ [q]) := by
  have h : hasElement halfTyped .selector = true := by decide +kernel
  exact ⟨h, serviceName_matcher halfTyped "app".toList h⟩

example : serviceName? halfTyped "app".toList = some "\"web\"".toList := by decide +kernel

end LogQuery
