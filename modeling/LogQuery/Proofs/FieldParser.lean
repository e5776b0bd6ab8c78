import LogQuery.Proofs.Grammar.Agree
import LogQuery.Proofs.Token.Cut
import LogQuery.Proofs.Word

/-! The parser of a field is read from the text of the query up to the end of its filter, and is the
one that stands ahead of that end in the tree of the whole query. -/
namespace LogQuery

open LogQuery.Tree (Within Filled leavesAll fillAll reads_significant reads_last)
open Grammar (Cut Nameless valueKinds)
open Token (Severed)

variable {query part : Text} {before after : List Token} {cs ds gs : List Tree} {e f : Element}
  {k : Kind} {w : Keyword} {ts us ls ms : List Token}

/-- Blanks and comments are no words, so that the grammar sees all of these. -/
theorem said_significant : Said w (Token.significant ls) ↔ Said w ls := by
  constructor
  · rintro ⟨l, hl, hk⟩
    exact ⟨l, List.mem_of_mem_filter hl, hk⟩
  · rintro ⟨l, hl, hk⟩
    refine ⟨l, List.mem_filter.mpr ⟨hl, ?_⟩, hk⟩
    rw [Token.isTrivia, hk]
    rfl

/-- What the grammar sees is what was scanned. -/
theorem significant_kinds (query : Text) : ∀ t ∈ significant query, t.kind ∈ Token.scanKinds :=
  fun _ ht => Token.lex_kind (List.mem_of_mem_filter ht)

theorem leaves_stripped (query : Text) :
    leavesAll (stripped query) = Token.significant (parse query).leaves := by
  rw [← Tree.leaves_strip (parse query) rfl, parse_strip]
  rfl

/-- Leaves from where on there are no names say no words. -/
theorem said_nameless (h : List.Forall₂ Token.ReadAs ts (ls ++ ms))
    (hts : ∀ t ∈ ts, t.kind ∈ Token.scanKinds) (hn : Nameless (ts.drop ls.length)) :
    Said w (ls ++ ms) ↔ Said w ls := by
  constructor
  · rintro ⟨l, hl, hk⟩
    rcases List.mem_append.mp hl with hl | hl
    · exact ⟨l, hl, hk⟩
    · exfalso
      obtain ⟨t, ht, -, hr⟩ := reads_token (List.forall₂_drop_append _ _ _ h) hl
      rcases hr with hr | ⟨v, hv, -⟩
      · have hs := hts t (List.mem_of_mem_drop ht)
        rw [← hr, hk] at hs
        simp [Token.scanKinds] at hs
      · simp only [Token.spells, Bool.and_eq_true, decide_eq_true_eq] at hv
        exact hn t ht hv.1
  · rintro ⟨l, hl, hk⟩
    exact ⟨l, List.mem_append_left _ hl, hk⟩

/-- Cut off behind a value, a query says the same words up to there. -/
theorem said_cut (hcut : Cut (significant part) (significant query))
    (hls : ls <+: leavesAll (stripped query)) (hlen : ls.length = (significant part).length) :
    Said w (parse part).leaves ↔ Said w ls := by
  obtain ⟨ns, hleft, hright, hn⟩ := Grammar.contents_cut Grammar.maxLevels hcut
  have hpart : Said w (parse part).leaves ↔ Said w ns := by
    obtain ⟨ms, hms⟩ := hleft
    have hreads := stripped_reads part
    rw [← said_significant, ← leaves_stripped, stripped, ← hms]
    rw [stripped, ← hms] at hreads
    exact said_nameless hreads (significant_kinds part) hn
  have hquery : Said w ls ↔ Said w ns := by
    have hle : ns.length ≤ ls.length := by
      have hl := (stripped_reads part).length_eq
      have := hleft.length_le
      rw [stripped] at hl
      omega
    obtain ⟨ms, rfl⟩ := List.prefix_of_prefix_length_le hright hls hle
    obtain ⟨more, hmore⟩ := hls
    have hfront := (Tree.fronts_append (hmore ▸ stripped_fronts query)).1
    refine said_nameless hfront (fun t ht => significant_kinds query t (List.mem_of_mem_take ht)) ?_
    rw [hlen]
    exact Grammar.cut_nameless hcut _ hn
  rw [hpart, hquery]

/-- The number that is a minute when what is behind it is cut off. -/
theorem lex_minute {v : Text} (h : Token.Lexed (ts ++ [⟨.duration, v⟩])) :
    Token.lex (Token.spelled (ts ++ [⟨.number, v⟩])) = ts ++ [⟨.duration, v⟩] := by
  have hs : Token.spelled (ts ++ [⟨.number, v⟩]) = Token.spelled (ts ++ [⟨.duration, v⟩]) := by
    rw [Token.spelled_append, Token.spelled_append]
    rfl
  rw [hs]
  exact h

/-- As many tokens are ahead of a cut as before. -/
theorem severed_length (h : Severed ts us) :
    (significant (Token.spelled ts)).length = (Token.significant ts).length := by
  rw [significant]
  cases h with
  | whole h => rw [h]
  | minute h hu =>
    rw [lex_minute h, Tree.significant_append, Tree.significant_append, List.length_append,
      List.length_append]
    rfl

/-- The last token ahead of a cut is the end of a value. -/
theorem severed_cut {front : List Token} {c : Token} (h : Severed ts us)
    (he : Token.significant ts = front ++ [c]) (hc : c.kind ∈ Grammar.closers) :
    Cut (significant (Token.spelled ts)) (Token.significant (ts ++ us)) := by
  rw [significant, Tree.significant_append]
  cases h with
  | whole h =>
    rw [h, he, List.append_assoc]
    exact Grammar.cut_append front (.last (.same hc) _)
  | minute h hu =>
    rw [lex_minute h, Tree.significant_append, Tree.significant_append, List.append_assoc]
    exact Grammar.cut_append _ (.last (.minute rfl rfl) _)

/-- With nothing but blanks and comments behind a cut, the grammar sees the same tokens. -/
theorem severed_all (h : Severed ts us) (hus : Token.significant us = []) :
    Token.lex (Token.spelled ts) = ts := by
  cases h with
  | whole h => exact h
  | @minute ts us u v h hu =>
    have ht : u.isTrivia = false := by
      rw [Token.isTrivia, hu]
      rfl
    rw [Token.significant_cons ht] at hus
    cases hus

/-- The leaves of a node, without blanks and comments, are those that the grammar gave it. -/
theorem filled_leaves {ahead behind : List Token}
    (h : Filled (stripped query) (Token.lex query) before k gs ahead ds behind) :
    Token.significant (leavesAll gs) = leavesAll ds := by
  have hds := stripped_solid h.origin
  have hself : Token.significant (leavesAll ds) = leavesAll ds := by
    refine List.filter_eq_self.mpr fun l hl => ?_
    rw [hds l hl]
    rfl
  rw [← hself, ← Tree.leavesAll_strip, ← Tree.leavesAll_strip, h.children, Tree.stripAll_fillAll]

/-- The tokens of a query up to some leaf, and what is left of the query there. -/
theorem parse_parted (h : (parse query).leaves = ls ++ ms) :
    ∃ ts us, Token.lex query = ts ++ us ∧ List.Forall₂ Token.ReadAs ts ls ∧
      List.Forall₂ Token.ReadAs us ms ∧ Severed ts us ∧ Token.spelled ls = Token.spelled ts := by
  have hreads := parse_reads query
  rw [h] at hreads
  set ts := (Token.lex query).take ls.length
  set us := (Token.lex query).drop ls.length
  have hlex : ts ++ us = Token.lex query := List.take_append_drop _ _
  have hts : List.Forall₂ Token.ReadAs ts ls := List.forall₂_take_append _ ls ms hreads
  have hus : List.Forall₂ Token.ReadAs us ms := List.forall₂_drop_append _ ls ms hreads
  refine ⟨ts, us, hlex.symm, hts, hus, ?_, Tree.text_of_reads hts⟩
  apply Token.lexed_left
  rw [hlex]
  exact Token.lexed_lex query

/-- Cut off behind the end of a value, a query says the same words up to there. -/
theorem said_ended (h : (parse query).leaves = ls ++ ms) {l : Token}
    (hl : (Token.significant ls).getLast? = some l) (hk : l.kind ∈ Grammar.closers) :
    Said w (parse (Token.spelled ls)).leaves ↔ Said w ls := by
  obtain ⟨ts, us, hlex, hts, -, hsevered, hspelled⟩ := parse_parted h
  have hsig := reads_significant hts
  obtain ⟨more, c, hmore, hc⟩ := reads_last hsig hl
  have hkind : c.kind = l.kind := by
    rcases hc.2 with hc | ⟨v, -, hc⟩
    · exact hc.symm
    · rw [hc] at hk
      cases v <;> exact absurd hk (by decide)
  have hcut := severed_cut hsevered hmore (hkind ▸ hk)
  rw [← hlex, ← hspelled] at hcut
  refine (said_cut hcut ?_ ?_).trans said_significant
  · rw [leaves_stripped, h, Tree.significant_append]
    exact List.prefix_append _ _
  · rw [hspelled, severed_length hsevered, hsig.length_eq]

/-- Cut off behind all that the grammar sees, a query says the same words. -/
theorem said_all (h : (parse query).leaves = ls ++ ms) (hms : Token.significant ms = []) :
    Said w (parse (Token.spelled ls)).leaves ↔ Said w ls := by
  obtain ⟨ts, us, hlex, hts, hus, hsevered, hspelled⟩ := parse_parted h
  have hnone : Token.significant us = [] := by
    have hl := (reads_significant hus).length_eq
    rw [hms] at hl
    exact List.length_eq_zero_iff.mp hl
  have hsame : significant (Token.spelled ls) = significant query := by
    rw [significant, hspelled, severed_all hsevered hnone, significant, hlex,
      Tree.significant_append, hnone, List.append_nil]
  rw [← said_significant, ← leaves_stripped, stripped, hsame, ← stripped, leaves_stripped, h,
    Tree.significant_append, hms, List.append_nil, said_significant]

/-- A comparison of a value that is cut off behind its end leaves the words up to there as they
are. -/
theorem said_settled (h : Within (parse query).children before (.node k gs) after)
    {ahead behind : List Token}
    (hf : Filled (stripped query) (Token.lex query) before k gs ahead ds behind)
    (hs : Grammar.Settled (Token.significant ((Token.lex query).drop before.length)) ds)
    (hv : ∃ l ∈ leavesAll gs, l.kind ∈ valueKinds) :
    Said w (parse (Token.spelled (before ++ leavesAll gs))).leaves ↔
      Said w (before ++ leavesAll gs) := by
  have hgs := filled_leaves hf
  have hleaves : (parse query).leaves = before ++ leavesAll gs ++ after := parse_leaves h
  have hreads := parse_reads query
  rw [hleaves, List.append_assoc] at hreads
  rcases hs with hnone | ⟨l, hl, hk⟩ | hall
  · obtain ⟨l, hl, hk⟩ := hv
    have hds : l ∈ leavesAll ds := by
      rw [← hgs]
      refine List.mem_filter.mpr ⟨hl, ?_⟩
      rw [Token.isTrivia]
      simp only [valueKinds, List.mem_cons, List.not_mem_nil, or_false] at hk
      rcases hk with hk | hk | hk | hk <;> rw [hk] <;> rfl
    exact absurd hk (hnone l hds)
  · refine said_ended hleaves (l := l) ?_ hk
    rw [Tree.significant_append, hgs, List.getLast?_append, hl]
    rfl
  · refine said_all hleaves ?_
    have hlen := (reads_significant (List.forall₂_drop_append _ _ _ hreads)).length_eq
    rw [Tree.significant_append, hgs, List.length_append] at hlen
    exact List.length_eq_zero_iff.mp (by omega)

/-- Blanks and comments are not listed, so that the first listed part is of the same kind. -/
theorem named_fillAll (cs : List Tree) (ts : List Token) :
    ((fillAll cs ts).1.find? fun c => c.kind.isNamed).map Tree.kind =
      (cs.find? fun c => c.kind.isNamed).map Tree.kind := by
  induction cs generalizing ts with
  | nil => rfl
  | cons c cs ih =>
    set us := ts.dropWhile Token.isTrivia
    have htrivia : ((ts.takeWhile Token.isTrivia).map Tree.ofToken).find?
        (fun c => c.kind.isNamed) = none := by
      rw [List.find?_eq_none]
      intro u hu
      obtain ⟨t, ht, rfl⟩ := List.mem_map.mp hu
      have ht : t.isTrivia = true := List.mem_takeWhile_imp ht
      have hn : t.kind.isNamed = false := Kind.isNamed_of_trivia ht
      simp [Tree.ofToken, Tree.kind, hn]
    have hc : (c.fill us).1.kind = c.kind := by cases c <;> rfl
    rw [fillAll, List.find?_append, htrivia, Option.none_or, List.find?_cons, List.find?_cons, hc]
    split
    · exact congrArg some hc
    · exact ih _

theorem elementsAt_head (start : Nat) (cs : List Tree) :
    (Tree.elementsAt start cs).head?.map Element.kind =
      (cs.find? fun c => c.kind.isNamed).map Tree.kind := by
  induction cs generalizing start with
  | nil => rfl
  | cons c cs ih =>
    rw [Tree.elementsAt, List.find?_cons]
    cases hc : c.kind.isNamed with
    | true => cases c <;> rfl
    | false => exact ih _

/-- A label filter that does not begin with one is a settled comparison. -/
theorem settled_of_first {ahead behind : List Token}
    (hf : Filled (stripped query) (Token.lex query) before .labelFilter gs ahead ds behind)
    (hfirst : (gs.find? fun c => c.kind.isNamed).map Tree.kind ≠ some .labelFilter) :
    Grammar.Settled (Token.significant ((Token.lex query).drop before.length)) ds := by
  have hsite := stripped_sites query ahead _ ds behind hf.origin
  rw [significant, ← hf.significant] at hsite
  obtain ⟨d, hd, hsettled⟩ := hsite.labelFilter rfl
  refine hsettled.resolve_left fun hfilter => hfirst ?_
  rw [hf.children, named_fillAll, hd, Option.map_some, hfilter]

/-- A value that is found in a label filter is one of its leaves. -/
theorem value_leaf (h : Within (parse query).children before (.node .labelFilter gs) after)
    (hk : k ∈ valueKinds) {start : Nat}
    (hv : ((Tree.node .labelFilter gs).elementAt start).first? k = some f) :
    ∃ l ∈ leavesAll gs, l.kind ∈ valueKinds := by
  obtain ⟨front, u, back, hw, hu, -⟩ := Element.walk_within _ _ (Element.first_walk hv)
  obtain rfl : u.kind = k := of_decide_eq_true hu
  cases hw with
  | head =>
    have hn : Kind.labelFilter ∉ valueKinds := by decide
    exact absurd hk hn
  | tail _ hw => cases hw
  | inside _ _ hw =>
    cases u with
    | leaf l x =>
      refine ⟨⟨l, x⟩, ?_, hk⟩
      rw [Tree.within_leaves hw]
      simp [Tree.leaves]
    | node l cs =>
      have hnode := within_node (Tree.within_trans h hw)
      have hl : ∀ k ∈ valueKinds, k.isNode = false := by decide
      rw [hl l hk] at hnode
      cases hnode

/-- A field has a value, and the parser of the text up to the end of its filter. -/
theorem ofFilter_field {types : LabelTypes} {field : FieldFilter}
    (h : FieldEntry.ofFilter? query types e = some (.field field)) :
    (∃ k ∈ valueKinds, ∃ f, e.first? k = some f) ∧
      field.parser = FieldEntry.parserBefore? query e.span.stop := by
  unfold FieldEntry.ofFilter? at h
  split at h
  · cases h
  · next name string _ hstring =>
    obtain ⟨op, -, hop⟩ := Option.map_eq_some_iff.mp h
    cases hop
    exact ⟨⟨.string, by decide, string, hstring⟩, rfl⟩
  · obtain ⟨number, hnumber, hop⟩ := Option.map_eq_some_iff.mp h
    split at hop
    · cases hop
      obtain ⟨k, hk, hfirst⟩ := List.exists_of_findSome?_eq_some hnumber
      have hkinds : ∀ k ∈ [Kind.number, .duration, .bytes], k ∈ valueKinds := by decide
      exact ⟨⟨k, hkinds k hk, number, hfirst⟩, rfl⟩
    · cases hop

/-- The parsers that stand ahead of an offset in the tree of the whole query: a query has those of
its `logfmt` and `json` elements that end at the offset or before it. -/
def FieldParser.upTo? (query : Text) (stop : Nat) : Option FieldParser :=
  match wordEndsBy query .logfmt stop, wordEndsBy query .json stop with
  | true, true => some .mixed
  | true, false => some .logfmt
  | false, true => some .json
  | false, false => none

/-- The words of the text up to the end of a field are those of the whole query up to there. -/
theorem hasElement_before {types : LabelTypes} {field : FieldFilter}
    (he : e ∈ leftLeaves query [.labelFilter])
    (h : FieldEntry.ofFilter? query types e = some (.field field)) (w : Keyword) :
    hasElement ((query.slice? 0 e.span.stop).getD query) (.keyword w) =
      wordEndsBy query w e.span.stop := by
  obtain ⟨hwalk, hhead⟩ := Element.leftLeaves_kind he
  obtain ⟨before, gs, after, hw, ha⟩ := elements_node rfl (by decide) hwalk
  obtain ⟨ahead, ds, behind, hf⟩ := parse_filled hw
  have hchildren : e.children = Tree.elementsAt (Token.spelled before).bytes gs := by
    rw [ha.element]
    rfl
  rw [hchildren, elementsAt_head] at hhead
  have hsettled := settled_of_first hf hhead
  have hvalue : ∃ l ∈ leavesAll gs, l.kind ∈ valueKinds := by
    obtain ⟨⟨k, hk, v, hv⟩, -⟩ := ofFilter_field h
    rw [ha.element] at hv
    exact value_leaf hw hk hv
  have hleaves : (parse query).leaves = before ++ leavesAll gs ++ after := parse_leaves hw
  have htext : Token.spelled before ++ (Tree.node .labelFilter gs).text =
      Token.spelled (before ++ leavesAll gs) := by
    rw [Token.spelled_append, Tree.text_leaves]
    rfl
  rw [Element.at_before ha, Option.getD_some, Element.at_stop ha, htext, Bool.eq_iff_iff,
    hasElement_word, wordEndsBy_iff hleaves]
  exact said_settled hw hf hsettled hvalue

/-- Each field filter of a query is read off a label filter, and its parser, which is found in the
text of the query up to the end of that filter, is the one that the tree of the whole query has up
to there. -/
theorem drilldown_parsers (query : Text) (types : LabelTypes) :
    (∀ field ∈ (drilldown query types).fields, ∃ e ∈ leftLeaves query [.labelFilter],
      FieldEntry.ofFilter? query types e = some (.field field)) ∧
    ∀ e ∈ leftLeaves query [.labelFilter], ∀ field,
      FieldEntry.ofFilter? query types e = some (.field field) →
        field.parser = FieldParser.upTo? query e.span.stop := by
  constructor
  · intro field hfield
    unfold drilldown at hfield
    split at hfield
    · cases hfield
    · obtain ⟨entry, hentry, hsome⟩ := List.mem_filterMap.mp hfield
      obtain ⟨e, he, hof⟩ := List.mem_filterMap.mp hentry
      cases entry with
      | field f =>
        obtain rfl := Option.some.inj hsome
        exact ⟨e, List.mem_of_mem_filter he, hof⟩
      | unknown t => cases hsome
  · intro e he field h
    rw [(ofFilter_field h).2]
    simp only [FieldEntry.parserBefore?, hasElement_before he h]
    rfl

/-- Filters in calls that do not close, one of them in a parenthesis. The number of the last has a
minute sign in front of an `i`, and is a duration in the text that ends with it. -/
def minuteText : Text :=
  "sum(rate(\x7ba=\"x\"\x7d | logfmt | b = \"y\" | json | (size > 5mi)[1m]".toList

theorem drilldown_parsers_minute :
    ∃ e ∈ leftLeaves minuteText [.labelFilter], ∃ field,
      FieldEntry.ofFilter? minuteText [] e = some (.field field) ∧
        field.parser = FieldParser.upTo? minuteText e.span.stop := by
  have hne : (drilldown minuteText []).fields ≠ [] := by decide +kernel
  obtain ⟨field, hfield⟩ := List.exists_mem_of_ne_nil _ hne
  obtain ⟨e, he, h⟩ := (drilldown_parsers minuteText []).1 field hfield
  exact ⟨e, he, field, h, (drilldown_parsers minuteText []).2 e he field h⟩

example : (drilldown minuteText []).fields.map (·.parser) = [some .logfmt, some .mixed] := by
  decide +kernel

end LogQuery
