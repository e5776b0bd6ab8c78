import LogQuery.Proofs.Element.Sight
import LogQuery.Proofs.Tight

/-! What is read off a query does not depend on its blanks and comments. -/
namespace LogQuery

open LogQuery.Tree (Within leavesAll)

namespace Token

variable {c : Char} {p : Text} {t : Token} {ts : List Token}

/-- A name in front of some tokens is in front of the first of them. -/
theorem name_prefix (h : Lexed (t :: ts)) (hc : isNameStart c = true)
    (hp : ∀ d ∈ p, isNamePart d = true) (hname : c :: p <+: spelled (t :: ts)) :
    c :: p <+: t.text := by
  obtain ⟨d, cs, hx, hscan, -⟩ := lexed_cons.mp h
  have hspelled : spelled (t :: ts) = d :: (cs ++ spelled ts) := by
    rw [← List.cons_append, ← hx]
    rfl
  rw [hspelled] at hname
  obtain ⟨rfl, rest⟩ := List.cons_prefix_cons.mp hname
  have hrun : run isNamePart (cs ++ spelled ts) = cs.length := by
    have hs : scan c (cs ++ spelled ts) = ⟨.identifier, run isNamePart (cs ++ spelled ts)⟩ := by
      unfold scan
      rw [name_plain hc, if_neg Bool.false_ne_true, if_pos hc]
    rw [hscan] at hs
    exact (Scan.mk.inj hs).2.symm
  have hlen : p.length ≤ cs.length := by
    obtain ⟨more, hmore⟩ := rest
    rw [← hrun, ← hmore, run, List.takeWhile_append_of_pos hp, List.length_append]
    exact Nat.le_add_right _ _
  rw [hx]
  exact List.cons_prefix_cons.mpr
    ⟨rfl, List.prefix_of_prefix_length_le rest (List.prefix_append _ _) hlen⟩

end Token

variable {query q r : Text} {before after : List Token} {gs : List Tree} {e f : Element}
  {s : Sight} {k : Kind}

/-- No node begins with a blank or a comment. -/
theorem node_opens (h : Within (parse query).children before (.node k gs) after) :
    ∀ l ∈ (leavesAll gs).head?, l.isTrivia = false := by
  obtain ⟨ahead, ds, behind, hf⟩ := parse_filled h
  obtain ⟨⟨-, hown⟩, -⟩ := Tree.fillAll_fronts (Tree.filled_fronts (stripped_fronts query) hf)
  rw [← hf.children] at hown
  exact Tree.fronts_head hown hf.opens

/-- A name in front of the text of some leaves of a query is in front of the first of them. -/
theorem name_leaf {l : Token} {ls : List Token} {c : Char} {p : Text}
    (h : (parse query).leaves = before ++ (l :: ls) ++ after) (hc : Token.isNameStart c = true)
    (hp : ∀ d ∈ p, Token.isNamePart d = true) :
    c :: p <+: Token.spelled (l :: ls) ↔ c :: p <+: l.text := by
  have hspelled : Token.spelled (l :: ls) = l.text ++ Token.spelled ls := rfl
  constructor
  · intro hname
    rw [List.append_assoc] at h
    obtain ⟨ts, us, hlex, -, hus, -, -⟩ := parse_parted h
    have htext := Tree.text_of_reads hus
    cases hus with
    | @cons t _ us _ ht _ =>
      have hlexed : Token.Lexed (t :: us) := by
        have hall := Token.lexed_lex query
        rw [hlex] at hall
        exact Token.lexed_right hall
      rw [ht.1]
      refine Token.name_prefix hlexed hc hp ?_
      have hmore : Token.spelled (l :: ls) <+: Token.spelled (t :: us) := by
        rw [Token.spelled, Token.spelled, ← htext, List.flatMap_append]
        exact List.prefix_append _ _
      exact hname.trans hmore
  · intro hname
    rw [hspelled]
    exact hname.trans (List.prefix_append _ _)

/-- A check for errors shows in the first token of a filter. -/
theorem sight_check (h : s.Of query e) (hk : e.kind = .labelFilter) :
    FieldEntry.isErrorCheck query e =
      s.tree.leaves.head?.any fun l => "__error__".toList.isPrefixOf l.text := by
  obtain ⟨before, u, after, hw, hu, rfl, rfl⟩ := h
  have htext := Element.at_text (within_at hw)
  cases u with
  | leaf l x =>
    obtain rfl : l = .labelFilter := hk
    exact absurd (within_leaf hw) (by decide)
  | node l gs =>
    have hopens := node_opens hw
    have hleaves := parse_leaves hw
    have hspelled : (Tree.node l gs).text = Token.spelled (leavesAll gs) := Tree.text_leaves _
    rw [FieldEntry.isErrorCheck, htext, hspelled, Tree.leaves_strip _ hu]
    rw [Tree.leaves] at hleaves ⊢
    cases hgs : leavesAll gs with
    | nil => rfl
    | cons m ls =>
      rw [hgs] at hopens hleaves
      rw [Token.significant_cons (hopens m rfl), Bool.eq_iff_iff, List.isPrefixOf_iff_prefix]
      simp only [List.head?_cons, Option.any_some, List.isPrefixOf_iff_prefix]
      exact name_leaf hleaves rfl (List.all_eq_true.mp rfl)

/-- What is looked for in two elements that go together is found in both or in neither. -/
theorem find_same {α : Type} (choices : List (Kind × α)) (h : SameSight q r e f) :
    (choices.find? fun (k, _) => (e.first? k).isSome) =
      choices.find? fun (k, _) => (f.first? k).isSome := by
  have hfirst : ∀ k, (e.first? k).isSome = (f.first? k).isSome := fun k =>
    Element.isSome_related (Element.first_related (sameSight_descends q r) h k)
  simp only [hfirst]

/-- The first token of a kind has the same text. -/
theorem first_text (h : SameSight q r e f) (hk : k.isNode = false) :
    (e.first? k).map (·.span.text q) = (f.first? k).map (·.span.text r) :=
  Element.map_related (Element.first_related (sameSight_descends q r) h k) fun _ ha _ hs =>
    sameSight_text hs (by rw [Element.first_kind ha, hk])

theorem first_value (h : SameSight q r e f) :
    (e.first? .string).map (·.span.unquoted q) = (f.first? .string).map (·.span.unquoted r) :=
  Element.map_related (Element.first_related (sameSight_descends q r) h .string) fun _ ha _ hs =>
    (sameSight_string hs (Element.first_kind ha)).1

/-- The first amount has the same text. -/
theorem first_amount (h : SameSight q r e f) (ks : List Kind) (hks : ∀ k ∈ ks, k.isNode = false) :
    (ks.findSome? e.first?).map (·.span.text q) = (ks.findSome? f.first?).map (·.span.text r) :=
  Element.map_related (Element.firstOf_related (sameSight_descends q r) h ks) fun _ ha _ hs => by
    obtain ⟨k, hk, hfirst⟩ := List.exists_of_findSome?_eq_some ha
    exact sameSight_text hs (by rw [Element.first_kind hfirst, hks k hk])

namespace FieldEntry

variable {types : LabelTypes}

/-- The name, the operator and the value of a field, without the parser. -/
def reading? (query : Text) (filter : Element) : Option (Text × Comparison × Text) :=
  match (filter.first? .identifier).map (·.span.text query),
    (filter.first? .string).map (·.span.unquoted query) with
  | none, _ => none
  | some name, some string =>
    (operator? stringOperators filter).map fun op => (name, op, string)
  | some name, none =>
    (([.number, .duration, .bytes].findSome? filter.first?).map (·.span.text query)).bind
      fun number => (operator? numberOperators filter).map fun op => (name, op, number)

/-- A field with a parser. -/
def parsed (types : LabelTypes) (parser : Option FieldParser) :
    Text × Comparison × Text → FieldFilter
  | (key, op, value) => ⟨key, op, value, labelType types key parser, parser⟩

theorem field_reading (query : Text) (types : LabelTypes) (e : Element) :
    (ofFilter? query types e).bind field? =
      (reading? query e).map (parsed types (parserBefore? query e.span.stop)) := by
  unfold ofFilter? reading?
  cases hname : e.first? .identifier with
  | none => rfl
  | some name =>
    cases hstring : e.first? .string with
    | some string =>
      simp only [Option.map_some]
      cases operator? stringOperators e <;> rfl
    | none =>
      simp only [Option.map_some, Option.map_none]
      cases [Kind.number, .duration, .bytes].findSome? e.first? with
      | none => rfl
      | some number =>
        simp only [Option.map_some, Option.bind_some]
        cases operator? numberOperators e <;> rfl

theorem reading_same (h : SameSight q r e f) : reading? q e = reading? r f := by
  have hops : ∀ ops, operator? ops e = operator? ops f := fun ops =>
    congrArg (Option.map Prod.snd) (find_same ops h)
  rw [reading?, reading?, first_text h rfl, first_value h, hops, hops,
    first_amount h _ (by decide)]

theorem eq_field {entry : Option FieldEntry} {x : FieldFilter} (h : entry.bind field? = some x) :
    entry = some (.field x) := by
  obtain ⟨given, rfl, hx⟩ := Option.bind_eq_some_iff.mp h
  cases given with
  | field y => exact congrArg (fun y => some (field y)) (Option.some.inj hx)
  | unknown t => cases hx

/-- What is read off elements that go together is the same field, and with the same parser. -/
theorem field_same (h : SameSight q r e f) (he : e ∈ leftLeaves q [.labelFilter])
    (hf : f ∈ leftLeaves r [.labelFilter]) :
    (ofFilter? q types e).bind field? = (ofFilter? r types f).bind field? := by
  have hq := field_reading q types e
  have hr := field_reading r types f
  rw [reading_same h] at hq
  cases hread : reading? r f with
  | none => rw [hq, hr, hread, Option.map_none, Option.map_none]
  | some x =>
    rw [hread, Option.map_some] at hq hr
    have hparser : parserBefore? q e.span.stop = parserBefore? r f.span.stop := by
      simp only [parserBefore?, hasElement_before he (eq_field hq),
        hasElement_before hf (eq_field hr), sameSight_words h]
    rw [hq, hr, hparser]

end FieldEntry

namespace LineEntry

variable {α : Type} {give : LineEntry → Option α}

mutual

theorem strings_kind : (e : Element) → f ∈ strings e → f.kind = .string
  | .mk k s cs, h => by
    rw [strings, List.mem_append] at h
    rcases h with h | h
    · split at h
      · cases h
      · simpa using List.find?_some (Option.mem_toList.mp h)
    · exact joined_kind cs h

theorem joined_kind : (es : List Element) → f ∈ joined es → f.kind = .string
  | [], h => by cases h
  | e :: es, h => by
    rw [joined] at h
    split at h
    · exact strings_kind e h
    · exact joined_kind es h

end

/-- The entries of filters that go together are the same, but for those without an operator. -/
theorem filter_same (hgive : ∀ t, give (.unknown t) = none) (h : SameSight q r e f) (i : Nat) :
    (ofFilter q e i).filterMap give = (ofFilter r f i).filterMap give := by
  have hop : operator? e = operator? f := congrArg (Option.map Prod.snd) (find_same operators h)
  rw [ofFilter, ofFilter, List.filterMap_filterMap, List.filterMap_filterMap]
  refine Element.filterMap_related (Element.strings_related (sameSight_descends q r) e h) ?_
  intro s hs t _ hst
  obtain ⟨hvalue, hquote⟩ := sameSight_string hst (strings_kind e hs)
  rw [ofString?, ofString?, hvalue, hquote, hop]
  split
  · rfl
  · cases operator? f with
    | none => exact (hgive _).trans (hgive _).symm
    | some op => cases op <;> rfl

end LineEntry

/-- The value that a matcher gives to a label. -/
theorem labelValue_same (h : SameSight q r e f) (label : Text) :
    labelValue? q label e = labelValue? r label f := by
  have htext : ∀ k : Kind, k.isNode = false →
      (e.child? k).map (·.span.text q) = (f.child? k).map (·.span.text r) := fun k hk =>
    Element.map_related (Element.child_related (sameSight_descends q r) h k) fun _ ha _ hs =>
      sameSight_text hs (by rw [Element.child_kind ha, hk])
  have hread : ∀ query e, labelValue? query label e =
      ((e.child? .identifier).map (·.span.text query)).bind fun name =>
        ((e.child? .string).map (·.span.text query)).bind fun value =>
          if name = label then some value else none := by
    intro query e
    rw [labelValue?]
    cases e.child? .identifier <;> cases e.child? .string <;> rfl
  rw [hread, hread, htext _ rfl, htext _ rfl]

section Queries

variable {keep : Kind → Bool}

/-- Queries of which the grammar sees the same have elements that go together. -/
theorem walk_same (h : significant q = significant r) (hk : keep .logQl = false) :
    List.Forall₂ (SameSight q r) ((rootElement q).walk keep) ((rootElement r).walk keep) := by
  rw [root_walk hk, root_walk hk]
  exact Element.walkAll_related (sameSight_descends q r) _ (sameSight_root h)

theorem leftLeaves_same (h : significant q = significant r) :
    List.Forall₂ (SameSight q r) (leftLeaves q [.labelFilter]) (leftLeaves r [.labelFilter]) := by
  have hroot : ∀ query, leftLeaves query [.labelFilter] =
      Element.leftLeavesAll [.labelFilter] (rootElement query).children := by
    intro query
    rw [leftLeaves, rootElement, parse_children]
    rfl
  rw [hroot, hroot]
  exact Element.leftLeavesAll_related (sameSight_descends q r) _ (sameSight_root h)

/-- Every kind but those of blanks and comments is in both queries or in neither. -/
theorem hasElement_same (h : significant q = significant r) (hk : k.isTrivia = false) :
    hasElement q k = hasElement r k := by
  have hkinds : ∀ query, k ∈ (parse query).kinds ↔
      k ∈ (Grammar.queryTree Grammar.maxLevels (significant query)).kinds := by
    intro query
    constructor
    · intro hm
      have hs := Tree.kinds_strip _ hk hm
      rwa [parse_strip] at hs
    · exact fun hm => Tree.kinds_withTrivia _ (Token.lex query) hm
  have hholds : (parse q).holds k = (parse r).holds k := by
    rw [Bool.eq_iff_iff, Tree.holds, Tree.holds, List.contains_iff_mem, List.contains_iff_mem,
      hkinds, hkinds, h]
  rw [hasElement, hasElement, hholds]

theorem selector_same (h : significant q = significant r) :
    (firstSelector? q).isSome = (firstSelector? r).isSome :=
  Element.isSome_related (Element.head_related (walk_same h (by decide)))

theorem fields_same (h : significant q = significant r) (types : LabelTypes) :
    (FieldEntry.ofQuery q types).filterMap FieldEntry.field? =
      (FieldEntry.ofQuery r types).filterMap FieldEntry.field? := by
  have hread : ∀ query, (FieldEntry.ofQuery query types).filterMap FieldEntry.field? =
      (leftLeaves query [.labelFilter]).filterMap fun e =>
        if FieldEntry.isErrorCheck query e then none
        else (FieldEntry.ofFilter? query types e).bind FieldEntry.field? := by
    intro query
    rw [FieldEntry.ofQuery, List.filterMap_filterMap, List.filterMap_filter]
    congr 1
    funext e
    cases FieldEntry.isErrorCheck query e <;> rfl
  rw [hread, hread]
  refine Element.filterMap_related (leftLeaves_same h) fun e he f hf hs => ?_
  have hcheck : FieldEntry.isErrorCheck q e = FieldEntry.isErrorCheck r f := by
    have hk : e.kind = .labelFilter :=
      of_decide_eq_true (Element.walk_kind _ (Element.leftLeaves_kind he).1)
    have hkr : f.kind = .labelFilter := (sameSight_descends q r).kind hs ▸ hk
    obtain ⟨s, hq, hr⟩ := hs
    rw [sight_check hq hk, sight_check hr hkr]
  rw [hcheck, FieldEntry.field_same hs he hf]

/-- The entries for the line filters of a query, but for those without an operator. -/
theorem entries_same {α : Type} (give : LineEntry → Option α)
    (hgive : ∀ t, give (.unknown t) = none) (h : significant q = significant r) :
    (LineEntry.ofQuery q).filterMap give = (LineEntry.ofQuery r).filterMap give := by
  rw [LineEntry.ofQuery, LineEntry.ofQuery, List.filterMap_flatMap, List.filterMap_flatMap]
  exact Element.zipIdx_related (walk_same h (by decide))
    (fun _ _ hs i => LineEntry.filter_same hgive hs i) 0

theorem serviceName_same (h : significant q = significant r) (label : Text) :
    serviceName? q label = serviceName? r label :=
  Element.findSome_related (walk_same h (by decide)) fun _ _ hs => labelValue_same hs label

theorem parserStage_same (h : significant q = significant r) : parserStage? q = parserStage? r := by
  rw [parserStage_untrimmed, parserStage_untrimmed]
  have hwalk : List.Forall₂ (SameSight q r) (elements q (some [.keyword .json, .keyword .logfmt]))
      (elements r (some [.keyword .json, .keyword .logfmt])) := walk_same h (by decide)
  refine Element.map_related (Element.head_related hwalk) fun e he f hs => sameSight_text hs ?_
  have hk := Element.walk_kind _ (List.mem_of_mem_head? he)
  simp only [Option.all_some, List.contains_iff_mem, List.mem_cons, List.not_mem_nil,
    or_false] at hk
  rcases hk with hk | hk <;> rw [hk] <;> rfl

/-- The filters of both queries, or none where there is no selector. -/
theorem filters_same (h : significant q = significant r) (types : LabelTypes) :
    (drilldown q types).fields = (drilldown r types).fields ∧
      (drilldown q types).lines = (drilldown r types).lines ∧
      (drilldown q types).patterns = (drilldown r types).patterns := by
  have hselector := selector_same h
  have hlines := entries_same LineEntry.line? (fun _ => rfl) h
  have hpatterns := entries_same LineEntry.pattern? (fun _ => rfl) h
  cases hq : firstSelector? q with
  | none =>
    rw [hq] at hselector
    have hr : firstSelector? r = none :=
      Option.isNone_iff_eq_none.mp (Option.isSome_eq_false_iff.mp hselector.symm)
    simp only [drilldown, hq, hr, and_self]
  | some selector =>
    rw [hq] at hselector
    obtain ⟨other, hr⟩ := Option.isSome_iff_exists.mp hselector.symm
    simp only [drilldown, hq, hr, fields_same h types, hlines, hpatterns, and_self]

end Queries

/-- Blanks and comments, and where they stand, change nothing of what is read off a query: two
queries with the same other tokens have the same fields, line filters and pattern filters, the same
parser stage and service name, and are both valid or both invalid. -/
theorem extraction_layout (h : Token.significant (Token.lex q) = Token.significant (Token.lex r))
    (types : LabelTypes) (label : Text) :
    (drilldown q types).fields = (drilldown r types).fields ∧
      (drilldown q types).lines = (drilldown r types).lines ∧
      (drilldown q types).patterns = (drilldown r types).patterns ∧
      parserStage? q = parserStage? r ∧ isValid q = isValid r ∧
      serviceName? q label = serviceName? r label := by
  obtain ⟨hfields, hlines, hpatterns⟩ := filters_same h types
  have hvalid : isValid q = isValid r := by
    rw [isValid, isValid, hasElement_same h (by decide)]
  exact ⟨hfields, hlines, hpatterns, parserStage_same h, hvalid, serviceName_same h label⟩

def compactText : Text :=
  "\x7bservice_name=\"api\"\x7d|=\"x\"or\"y\"|json|status>=500|level=\"warn\"".toList

/-- The same query, with comments and on several lines. -/
def spreadText : Text :=
  " # all of it\n\x7b service_name = \"api\" \x7d\n  |= \"x\" or \"y\" # either\n| json |
   status >= 500\n| level = \"warn\" # and so on".toList

theorem extraction_layout_spread :
    Token.significant (Token.lex compactText) = Token.significant (Token.lex spreadText) ∧
      (drilldown compactText []).fields = (drilldown spreadText []).fields ∧
      (drilldown compactText []).lines = (drilldown spreadText []).lines ∧
      (drilldown compactText []).patterns = (drilldown spreadText []).patterns ∧
      parserStage? compactText = parserStage? spreadText ∧
      isValid compactText = isValid spreadText ∧
      serviceName? compactText "service_name".toList =
        serviceName? spreadText "service_name".toList := by
  have h : Token.significant (Token.lex compactText) =
      Token.significant (Token.lex spreadText) := by
    decide +kernel
  exact ⟨h, extraction_layout h [] "service_name".toList⟩

example : (drilldown spreadText []).fields =
    [⟨"status".toList, .greaterEqual, "500".toList, .parsed, some .json⟩,
      ⟨"level".toList, .equal, "warn".toList, .parsed, some .json⟩] := by
  decide +kernel

end LogQuery
