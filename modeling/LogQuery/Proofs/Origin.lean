import LogQuery.Proofs.Fields
import LogQuery.Proofs.Labels.Matcher
import LogQuery.Proofs.Lines
import LogQuery.Proofs.Origin.Chain
import LogQuery.Proofs.Origin.Nested

/-! Where the filters of any query come from: error nodes give nothing, except where nesting was
refused. -/
namespace LogQuery

open LogQuery.Grammar (Kept RefusedIn)
open LogQuery.Tree (Within leavesAll kindsAll pruneAll)
open List (SublistForall₂)

section Lists

variable {α β γ : Type} {R : α → β → Prop} {S : γ → β → Prop}

theorem sublist_of_forall {as : List α} {bs : List β} (h : List.Forall₂ R as bs) :
    SublistForall₂ R as bs :=
  List.sublistForall₂_iff.mpr ⟨bs, h, .refl bs⟩

theorem sublist_right {as : List α} {bs cs : List β} (h : SublistForall₂ R as bs)
    (hs : bs.Sublist cs) : SublistForall₂ R as cs := by
  obtain ⟨ds, hd, hds⟩ := List.sublistForall₂_iff.mp h
  exact List.sublistForall₂_iff.mpr ⟨ds, hd, hds.trans hs⟩

theorem sublist_append {as cs : List α} {bs ds : List β} (h : SublistForall₂ R as bs)
    (hc : SublistForall₂ R cs ds) : SublistForall₂ R (as ++ cs) (bs ++ ds) := by
  obtain ⟨bs', hb, hbs⟩ := List.sublistForall₂_iff.mp h
  obtain ⟨ds', hd, hds⟩ := List.sublistForall₂_iff.mp hc
  exact List.sublistForall₂_iff.mpr ⟨bs' ++ ds', List.rel_append hb hd, hbs.append hds⟩

/-- What is given by some of the items comes from these. -/
theorem sublist_filterMap {give : γ → Option α} {cs : List γ} {bs : List β}
    (h : SublistForall₂ S cs bs) (hg : ∀ c b a, S c b → give c = some a → R a b) :
    SublistForall₂ R (cs.filterMap give) bs := by
  induction h with
  | nil => exact .nil
  | @cons c b cs bs hs _ ih =>
    rw [List.filterMap_cons]
    split
    · exact .cons_right ih
    · next a ha => exact .cons (hg c b a hs ha) ih
  | cons_right _ ih => exact .cons_right ih

theorem sublist_numbered {δ : Type} {f : γ → Nat → List α} {g : δ → Nat → List β}
    {T : γ → δ → Prop} (hfg : ∀ c d n, T c d → SublistForall₂ R (f c n) (g d n)) {cs : List γ}
    {ds : List δ} (h : List.Forall₂ T cs ds) (n : Nat) :
    SublistForall₂ R ((cs.zipIdx n).flatMap fun p => f p.1 p.2)
      ((ds.zipIdx n).flatMap fun p => g p.1 p.2) := by
  induction h generalizing n with
  | nil => exact .nil
  | cons ht _ ih =>
    rw [List.zipIdx_cons, List.zipIdx_cons, List.flatMap_cons, List.flatMap_cons]
    exact sublist_append (hfg _ _ n ht) (ih (n + 1))

end Lists

/-- The tree of a query without blanks and comments, and without what stands in error nodes. -/
def cleared (query : Text) : Tree := (parse query).strip.prune

section Cleared

variable {query : Text} {k : Kind}

/-- Error nodes hold tokens only. -/
theorem stripped_shuts (query : Text) (hk : k.isNode = true) : Tree.Shuts k (stripped query) := by
  intro before ds after hw hmem
  have hsite := (stripped_sites query _ _ _ _ hw).error rfl
  rw [hsite, Tree.kindsAll_ofToken] at hmem
  obtain ⟨t, ht, rfl⟩ := List.mem_map.mp hmem
  have hlex : t ∈ Token.lex query :=
    List.mem_of_mem_filter (List.mem_of_mem_drop (List.mem_of_mem_take ht))
  have hscan : ∀ k ∈ Token.scanKinds, k.isNode = false := by decide
  rw [hscan _ (Token.lex_kind hlex)] at hk
  cases hk

theorem cleared_stripped (query : Text) :
    cleared query = .node .logQl (pruneAll (stripped query)) := by
  rw [cleared, parse_strip]
  rfl

/-- All label filters stand outside of error nodes. -/
theorem cleared_labelFilters (query : Text) :
    (cleared query).outermost .labelFilter = (labelFilters query).map Tree.prune := by
  have hne : Kind.labelFilter ≠ .error := by decide
  rw [labelFilters_eq, cleared_stripped, ← Tree.outermostAll_prune hne _ (stripped_shuts query rfl)]
  rfl

theorem cleared_lineFilters (query : Text) :
    (cleared query).parts (fun k => k = .lineFilter) =
      (Tree.partsAll (fun k => k = .lineFilter) (stripped query)).map Tree.prune := by
  have hne : Kind.lineFilter ≠ .error := by decide
  rw [cleared_stripped, ← Tree.partsAll_prune hne _ (stripped_shuts query rfl)]
  rfl

end Cleared

/-- A tree of a query that is the given one outside of its error nodes, where nesting was refused:
one of these error nodes holds tokens. -/
structure CutOff (query : Text) (shown whole : Tree) : Prop where
  stands : ∃ before after, Within (stripped query) before whole after
  shown : whole.prune = shown
  refused : RefusedIn (refused query) [whole]

/-- A filter on a field has the name, the operator and the value of some of the tokens. -/
structure FieldFilter.MadeOf (f : FieldFilter) (ls : List Token) : Prop where
  key : ∃ l ∈ ls, l.kind = .identifier ∧ f.key = l.text
  operator : ∃ l ∈ ls, f.operator.symbol.toList = l.text
  value : ∃ l ∈ ls, l.kind ∈ Grammar.valueKinds ∧
    f.value = if l.kind = .string then l.value else l.text

/-- A filter on a field is the left-most comparison of its label filter. -/
def FieldRead (f : FieldFilter) (filter : Tree) : Prop :=
  ∃ t, FieldSource.ofFilter? filter = some t ∧ t.Gives f

/-- Only a label filter that is cut off so may have no comparison and still give a filter on a field,
which is made of tokens in it. -/
def FieldOrigin (query : Text) (f : FieldFilter) (filter : Tree) : Prop :=
  FieldRead f filter ∨
    filter.leftmost? = none ∧ ∃ whole, CutOff query filter whole ∧ f.MadeOf whole.leaves

/-- A string in a line filter. -/
structure LineSource where
  number : Nat
  filter : Tree
  string : Token

/-- The sign is that of the filter. Only of one that is cut off so it may be any sign in it. -/
def LineSource.Signs (query : Text) (s : LineSource) (sign : Text) : Prop :=
  sign = s.filter.sign ∨
    ∃ whole, CutOff query s.filter whole ∧
      ∃ l ∈ whole.leaves, l.kind ∈ Grammar.lineOps ∧ sign = l.text

/-- The string, as it is read with some sign. -/
def LineSource.literal (s : LineSource) (sign : Text) : LineLiteral := ⟨s.number, sign, s.string⟩

/-- A filter on lines has the sign of its line filter and the value of the string. -/
def LineOrigin (query : Text) (f : LineFilter) (s : LineSource) : Prop :=
  ∃ sign, s.Signs query sign ∧ (s.literal sign).Gives f

def PatternOrigin (query : Text) (f : PatternFilter) (s : LineSource) : Prop :=
  ∃ sign, s.Signs query sign ∧ (s.literal sign).GivesPattern f

/-- A filter of either sort. -/
def EntryOrigin (query : Text) (e : LineEntry) (s : LineSource) : Prop :=
  ∃ sign, s.Signs query sign ∧ (s.literal sign).GivesEntry e

/-- The strings of a line filter. -/
def lineStrings (filter : Tree) (number : Nat) : List LineSource :=
  (filter.leaves.filter fun l => l.kind = .string).map fun string => ⟨number, filter, string⟩

/-- The strings of all line filters, outside of error nodes. The filters are numbered from zero
on. -/
def lineSources (query : Text) : List LineSource :=
  ((cleared query).parts fun k => k = .lineFilter).zipIdx.flatMap fun p => lineStrings p.1 p.2

section Found

variable {query : Text} {e d : Element} {w : Tree} {k : Kind}

/-- What is found by a kind of tokens is one of the tokens of the tree. -/
theorem first_leaf (h : Seen query e w) (hk : k.isNamed = true) (hn : k.isNode = false)
    (hd : e.first? k = some d) :
    ∃ l ∈ w.leaves, l.kind = k ∧ Element.Located query d (.ofToken l) := by
  have hr := first_token h hk hn
  rw [hd] at hr
  cases hl : w.leaves.find? fun l => l.kind = k with
  | none =>
    rw [hl] at hr
    cases hr
  | some l =>
    rw [hl] at hr
    cases hr with
    | some hlocated =>
      exact ⟨l, List.mem_of_find?_eq_some hl, by simpa using List.find?_some hl, hlocated⟩

/-- The operator that is found by the kinds of signs is that of a sign in the tree. -/
theorem operator_leaf {α : Type} {operators : List (Kind × α)} {op : α} (spelled : α → Text)
    (h : Seen query e w)
    (hops : ∀ p ∈ operators, (p.1.isNamed = true ∧ p.1.isNode = false) ∧
      p.1 ∈ Token.signKinds ∧ spelled p.2 = p.1.symbol.toList)
    (ho : (operators.find? fun (k, _) => (e.first? k).isSome).map Prod.snd = some op) :
    ∃ l ∈ w.leaves, l.kind ∈ operators.map Prod.fst ∧ spelled op = l.text := by
  obtain ⟨⟨k, op⟩, hp, rfl⟩ := Option.map_eq_some_iff.mp ho
  have hmem := List.mem_of_find?_eq_some hp
  have hfound : (e.first? k).isSome = true := by simpa using List.find?_some hp
  obtain ⟨d, hd⟩ := Option.isSome_iff_exists.mp hfound
  obtain ⟨⟨hnamed, hnode⟩, hsign, hspelled⟩ := hops (k, op) hmem
  obtain ⟨l, hl, rfl, -⟩ := first_leaf h hnamed hnode hd
  exact ⟨l, hl, List.mem_map_of_mem hmem,
    hspelled.trans (leaf_sign (seen_leaves h l hl) hsign).symm⟩

end Found

section Fields

variable {query : Text} {types : LabelTypes} {f : Element} {u : Tree} {x : FieldFilter}

/-- Wherever a filter on a field is found, it is made of tokens that stand there. -/
theorem field_leaves {w : Tree} (h : Seen query f w)
    (hx : (FieldEntry.ofFilter? query types f).bind FieldEntry.field? = some x) :
    x.MadeOf w.leaves := by
  rw [FieldEntry.ofFilter?] at hx
  split at hx
  · cases hx
  · next name string hname hstring =>
    obtain ⟨op, hop, hx⟩ := Option.bind_eq_some_iff.mp hx
    obtain ⟨op, ho, rfl⟩ := Option.map_eq_some_iff.mp hop
    obtain rfl := Option.some.inj hx
    obtain ⟨l, hl, hk, ⟨_, hat⟩⟩ := first_leaf h rfl rfl hname
    obtain ⟨v, hv, hvk, ⟨_, hvat⟩⟩ := first_leaf h rfl rfl hstring
    obtain ⟨o, hol, -, hsign⟩ := operator_leaf (fun op => op.symbol.toList) h
      (by decide) ho
    refine ⟨⟨l, hl, hk, Element.at_text hat⟩, ⟨o, hol, hsign⟩, v, hv, ?_, ?_⟩
    · simp [hvk, Grammar.valueKinds]
    · rw [if_pos hvk]
      exact at_value hvat (seen_quoted h hv hvk)
  · next name hname hstring =>
    obtain ⟨entry, hentry, hx⟩ := Option.bind_eq_some_iff.mp hx
    obtain ⟨number, hnumber, rfl⟩ := Option.map_eq_some_iff.mp hentry
    split at hx
    · next op ho =>
      obtain rfl := Option.some.inj hx
      obtain ⟨k, hk, hfirst⟩ := List.exists_of_findSome?_eq_some hnumber
      have hkinds : ∀ k ∈ [Kind.number, .duration, .bytes],
          (k.isNamed = true ∧ k.isNode = false) ∧ k ∈ Grammar.valueKinds ∧ k ≠ .string := by decide
      obtain ⟨⟨hnamed, hnode⟩, hvalue, hstring⟩ := hkinds k hk
      obtain ⟨l, hl, hlk, ⟨_, hat⟩⟩ := first_leaf h rfl rfl hname
      obtain ⟨v, hv, rfl, ⟨_, hvat⟩⟩ := first_leaf h hnamed hnode hfirst
      obtain ⟨o, hol, -, hsign⟩ := operator_leaf (fun op => op.symbol.toList) h
        (by decide) ho
      refine ⟨⟨l, hl, hlk, Element.at_text hat⟩, ⟨o, hol, hsign⟩, v, hv, hvalue, ?_⟩
      rw [if_neg hstring]
      exact Element.at_text hvat
    · cases hx

/-- What the leaf of a label filter gives. -/
theorem leaf_origin {before after : List Token} (hw : Within (stripped query) before u after)
    (h : Leaf query (refused query) f u)
    (hx : (FieldEntry.ofFilter? query types f).bind FieldEntry.field? = some x) :
    FieldOrigin query x u.prune := by
  cases h with
  | empty _ _ hname => simp [FieldEntry.ofFilter?, hname] at hx
  | refused w hleft _ hcut hseen hin =>
    obtain ⟨⟨l, hl, hkey⟩, ⟨o, ho, hsign⟩, v, hv, hvalue⟩ := field_leaves hseen hx
    refine Or.inr ⟨by rw [Tree.leftmost_prune, hleft, Option.map_none], u,
      ⟨⟨before, after, hw⟩, rfl, hcut⟩, ?_⟩
    exact ⟨⟨l, hin l hl, hkey⟩, ⟨o, hin o ho, hsign⟩, v, hin v hv, hvalue⟩
  | test name sign rest c hleft hseen htest =>
    have htokens := test_tokens htest
    obtain ⟨v, hv⟩ := value_tokens htokens.value
    have hshows : Shows query f c name sign rest v := ⟨hseen, htokens, hv⟩
    cases v with
    | none =>
      rw [shows_nothing hshows] at hx
      cases hx
    | some value =>
      have hread := shows_read types hshows
      refine Or.inl ⟨⟨⟨.identifier, name⟩, sign, value⟩, ?_, ?_⟩
      · rw [FieldSource.ofFilter?, Tree.leftmost_prune, hleft, Option.map_some, Option.bind_some,
          ofTree_pruned htokens hv]
        rfl
      · cases hfield : FieldSource.isField ⟨⟨.identifier, name⟩, sign, value⟩ with
        | true =>
          obtain ⟨y, hy, hgives⟩ := hread.field hfield
          rw [hy] at hx
          exact Option.some.inj hx ▸ hgives
        | false =>
          obtain ⟨text, htext, -⟩ := hread.warning hfield
          rw [htext] at hx
          cases hx

theorem fields_origin (query : Text) (types : LabelTypes) :
    SublistForall₂ (FieldOrigin query)
      ((FieldEntry.ofQuery query types).filterMap FieldEntry.field?)
      ((cleared query).outermost .labelFilter) := by
  rw [cleared_labelFilters, List.sublistForall₂_map_right_iff, FieldEntry.ofQuery,
    List.filterMap_filterMap, List.filterMap_filter]
  refine sublist_filterMap (sublist_of_forall (leftLeaves_leaf query).flip) ?_
  rintro f u x ⟨hu, hleaf⟩ hx
  obtain ⟨-, before, after, hw⟩ := labelFilters_within hu
  split at hx
  · exact leaf_origin hw hleaf hx
  · cases hx

end Fields

section Lines

variable {query : Text} {filter string : Element} {cs : List Tree} {before after : List Token}
  {l : Token}

/-- The kinds of the operators of line filters are those of their signs. -/
theorem operators_kinds : ∀ p ∈ LineEntry.operators, p.1 ∈ Grammar.lineOps := by
  simp [LineEntry.operators, Grammar.lineOps]

section Operator

variable {op : Kind} {x : Text} {more : List Tree}

/-- The operator that is found is the first one of which there is a sign. -/
theorem operator_seen (h : Seen query filter (.node .lineFilter cs)) :
    LineEntry.operator? filter = (LineEntry.operators.find? fun p =>
      (leavesAll cs).any fun l => l.kind = p.1).map Prod.snd := by
  have hkinds : ∀ k ∈ Grammar.lineOps, k.isNamed = true ∧ k.isNode = false := by decide
  rw [LineEntry.operator?, find_seen _ h fun p hp => hkinds _ (operators_kinds p hp)]
  rfl

variable (h : Seen query filter (.node .lineFilter (.node .filter [.leaf op x] :: more)))
  (hop : op ∈ Grammar.lineOps)

include h hop

/-- Where no sign follows, it is that of the sign in front. -/
theorem operator_alone (hsigns : ∀ l ∈ leavesAll more, l.kind ∉ Grammar.lineOps) :
    ∃ o, LineEntry.operator? filter = some o ∧ o.symbol = x := by
  obtain ⟨o, ho, hsymbol⟩ := LineEntry.operators_sign hop
  have hops : (LineEntry.operators.find? fun p =>
      (⟨op, x⟩ :: leavesAll more : List Token).any fun l => l.kind = p.1) =
        LineEntry.operators.find? fun p => p.1 = op := by
    refine List.find?_congr fun p hp => ?_
    have hnone : ((leavesAll more).any fun l => l.kind = p.1) = false := by
      rw [List.any_eq_false]
      exact fun l hl he => hsigns l hl (of_decide_eq_true he ▸ operators_kinds p hp)
    rw [List.any_cons, hnone, Bool.or_false]
    simp [eq_comm]
  have hsub : Grammar.lineOps ⊆ Token.signKinds := by decide
  have hx : x = op.symbol.toList :=
    leaf_sign (l := ⟨op, x⟩) (seen_leaves h _ (.head _)) (hsub hop)
  refine ⟨o, ?_, hsymbol.trans hx.symm⟩
  rw [operator_seen h, leavesAll]
  exact congrArg (Option.map Prod.snd) (hops.trans ho)

/-- It is always that of some sign in the line filter. -/
theorem operator_some : ∃ o, LineEntry.operator? filter = some o ∧
    ∃ l ∈ (Tree.node .lineFilter (.node .filter [.leaf op x] :: more)).leaves,
      l.kind ∈ Grammar.lineOps ∧ o.symbol = l.text := by
  obtain ⟨p, hp, -⟩ := LineEntry.operators_sign hop
  have hsome : (LineEntry.operator? filter).isSome = true := by
    rw [operator_seen h, Option.isSome_map, List.find?_isSome]
    exact ⟨_, List.mem_of_find?_eq_some hp, by simp [leavesAll, Tree.leaves]⟩
  obtain ⟨o, ho⟩ := Option.isSome_iff_exists.mp hsome
  obtain ⟨l, hl, hk, hsign⟩ := operator_leaf LineEntry.Op.symbol h (by decide) ho
  obtain ⟨q, hq, hqk⟩ := List.mem_map.mp hk
  exact ⟨o, ho, l, hl, hqk ▸ operators_kinds q hq, hsign⟩

end Operator

/-- A line filter begins with its sign, and the operator that is found is that of the sign, if
nesting was not refused in it. -/
theorem operator_origin (h : Seen query filter (.node .lineFilter cs))
    (hw : Within (stripped query) before (.node .lineFilter cs) after) :
    ∃ op x more, cs = .node .filter [.leaf op x] :: more ∧ Chained (refused query) more ∧
      ∃ o, LineEntry.operator? filter = some o ∧ ∀ number string,
        (LineSource.mk number (Tree.node .lineFilter cs).prune string).Signs query o.symbol := by
  obtain ⟨op, hop, x, more, rfl⟩ := (stripped_sites query _ _ _ _ hw).lineFilter rfl
  have hkept := Grammar.kept_within (stripped_kept query) hw
  obtain ⟨_, _, hcs, hparts⟩ := Grammar.kept_head hkept
  obtain ⟨-, rfl⟩ := List.cons.inj hcs
  have hmore : Kept (refused query) more := Grammar.kept_tail (Grammar.kept_inside hkept)
  have hchained := chained_of_kept hmore hparts
  refine ⟨op, x, more, rfl, hchained, ?_⟩
  rcases chained_signs hchained with hsigns | hcut
  · obtain ⟨o, ho, rfl⟩ := operator_alone h hop hsigns
    refine ⟨o, ho, fun number string => Or.inl ?_⟩
    simp [Tree.sign, Tree.prune, pruneAll, Tree.children, Tree.kind, Tree.text, Tree.textAll]
  · obtain ⟨o, ho, hsign⟩ := operator_some h hop
    refine ⟨o, ho, fun number string => Or.inr ⟨_, ⟨⟨before, after, hw⟩, rfl, ?_⟩, hsign⟩⟩
    exact Grammar.refusedIn_node (Grammar.refusedIn_tail hcut _) .lineFilter

theorem ofString_origin {number : Nat} {sign : Text} {o : LineEntry.Op} {e : LineEntry}
    (ho : LineEntry.operator? filter = some o) (hsign : o.symbol = sign)
    (hs : Seen query string (.ofToken l)) (hl : l.kind = .string)
    (he : LineEntry.ofString? query filter number string = some e) :
    (LineLiteral.mk number sign l).GivesEntry e := by
  have hq : l.IsQuoted := seen_quoted hs (by cases l; exact .head _) hl
  rcases ofString_given (l := ⟨number, sign, l⟩) ho hsign (seen_token hs) hq with
    ⟨-, hnone⟩ | ⟨-, entry, hsome, hgives⟩
  · rw [hnone] at he
    cases he
  · rw [hsome] at he
    exact Option.some.inj he ▸ hgives

/-- What one line filter gives comes from strings in it. -/
theorem ofFilter_origin (h : Seen query filter (.node .lineFilter cs))
    (hw : Within (stripped query) before (.node .lineFilter cs) after) (number : Nat) :
    SublistForall₂ (EntryOrigin query) (LineEntry.ofFilter query filter number)
      (lineStrings (Tree.node .lineFilter cs).prune number) := by
  obtain ⟨op, x, more, rfl, hchained, o, ho, hsigns⟩ := operator_origin h hw
  have hopens : (Tree.node .filter [.leaf op x]).kind ∈ [.filter, .keyword .or] := .head _
  obtain ⟨ls, hls, hsub⟩ := chained_strings .lineFilter hchained hopens
  have hstrings : ls.Sublist ((Tree.node .lineFilter
      (.node .filter [.leaf op x] :: more)).prune.leaves.filter fun l => l.kind = .string) := by
    refine hsub.trans (List.Sublist.filter _ ?_)
    simp [Tree.prune, pruneAll, Tree.leaves, leavesAll]
  have hseen := strings_seen _ h
  rw [hls, List.forall₂_map_right_iff] at hseen
  have hkind : ∀ l ∈ ls, l.kind = .string := fun l hl => by
    simpa using List.of_mem_filter (hstrings.subset hl)
  refine sublist_right ?_ (hstrings.map _)
  rw [List.sublistForall₂_map_right_iff, LineEntry.ofFilter]
  refine sublist_filterMap
    (sublist_of_forall ((List.forall₂_and_left _ _).mpr ⟨hkind, hseen.flip⟩).flip) ?_
  rintro string l e ⟨hl, hs⟩ he
  exact ⟨o.symbol, hsigns number l, ofString_origin ho rfl hs hl he⟩

/-- The line filters of a query, as they are walked over. -/
theorem lineFilters_seen (query : Text) :
    List.Forall₂ (fun e u => Seen query e u ∧ ∃ cs before after, u = .node .lineFilter cs ∧
        Within (stripped query) before u after)
      (elements query (some [.lineFilter]))
      (Tree.partsAll (fun k => k = .lineFilter) (stripped query)) := by
  refine ((List.forall₂_and_left _ _).mpr
    ⟨fun u hu => hu, (elements_seen query (by decide)).flip⟩).flip.imp ?_
  rintro e u ⟨hu, hs⟩
  obtain ⟨hk, before, after, hw⟩ := Tree.partsAll_within _ hu
  have hk : u.kind = .lineFilter := of_decide_eq_true hk
  cases u with
  | leaf k x =>
    obtain rfl : k = .lineFilter := hk
    cases (leaf_kind (seen_leaves hs ⟨.lineFilter, x⟩ (.head _)) : true = false)
  | node k cs =>
    obtain rfl : k = .lineFilter := hk
    exact ⟨hs, cs, before, after, rfl, hw⟩

/-- Entries come from the strings of the line filters. -/
theorem entries_origin (query : Text) :
    SublistForall₂ (EntryOrigin query) (LineEntry.ofQuery query) (lineSources query) := by
  rw [LineEntry.ofQuery, lineSources, cleared_lineFilters, List.zipIdx_map, List.flatMap_map]
  refine sublist_numbered (f := LineEntry.ofFilter query) (g := fun u n => lineStrings u.prune n) ?_
    (lineFilters_seen query) 0
  rintro e _ n ⟨hs, cs, before, after, rfl, hw⟩
  exact ofFilter_origin hs hw n

end Lines

/-- Of any query, however broken, each filter on a field has the name, the operator and the value of
the left-most comparison of one label filter, and each filter on lines or on patterns has the
operator of the sign of one line filter and the value of a string in it, all of tokens that stand in
no error node. Only where nesting was refused in a label filter or a line filter, the filter on the
field may be made of any of its tokens, and the operator that of any of its signs. -/
theorem drilldown_origin (query : Text) (types : LabelTypes) :
    SublistForall₂ (FieldOrigin query) (drilldown query types).fields
        ((cleared query).outermost .labelFilter) ∧
      SublistForall₂ (LineOrigin query) (drilldown query types).lines
        (lineSources query) ∧
      SublistForall₂ (PatternOrigin query) (drilldown query types).patterns
        (lineSources query) := by
  rw [drilldown]
  split
  · exact ⟨.nil, .nil, .nil⟩
  · refine ⟨fields_origin query types, sublist_filterMap (entries_origin query) ?_,
      sublist_filterMap (entries_origin query) ?_⟩
    · rintro e s f ⟨sign, hs, he⟩ hf
      cases he with
      | line g hg =>
        obtain rfl := Option.some.inj hf
        exact ⟨sign, hs, hg⟩
      | pattern g hg => cases hf
    · rintro e s f ⟨sign, hs, he⟩ hf
      cases he with
      | line g hg => cases hf
      | pattern g hg =>
        obtain rfl := Option.some.inj hf
        exact ⟨sign, hs, hg⟩

/-- A comparison, and a label with a string behind a bar. -/
def looseTokens : List Token :=
  [⟨.identifier, "x".toList⟩, Kind.mark .gtr, ⟨.number, "5".toList⟩, Kind.mark .pipe,
    ⟨.identifier, "y".toList⟩, Kind.mark .eq, ⟨.string, "\"z\"".toList⟩]

/-- Behind one pair of parentheses too many, a filter comes from the error node of what was refused,
and from no comparison: the name is that of the first label, and the string that of the second. -/
theorem drilldown_not_origin :
    ¬ SublistForall₂ FieldRead (drilldown (nestedText looseTokens) []).fields
      ((cleared (nestedText looseTokens)).outermost .labelFilter) := by
  have hprinted : Printed looseTokens := by
    have hlex : ∀ t ∈ looseTokens, Token.lex t.text = [t] ∧ t.kind ∉ Token.openKinds := by
      decide +kernel
    exact fun t ht => ⟨(hlex t ht).1, (hlex t ht).2⟩
  obtain ⟨x, hx⟩ := nested_fields hprinted (by decide) (by decide) (by decide) []
  obtain ⟨t, ht, hfilters⟩ := nested_labelFilters (by decide) hprinted
  rw [hx, cleared_labelFilters, hfilters]
  intro h
  cases h with
  | cons horigin _ =>
    obtain ⟨test, htest, -⟩ := horigin
    rw [FieldSource.ofFilter?, nested_leftmost ht] at htest
    cases htest
  | cons_right h => cases h

end LogQuery
