import LogQuery.Proofs.Fields.Test
import LogQuery.Proofs.Layout

/-! What is found in the left-most part of a label filter: the comparison there, token by token. -/
namespace LogQuery

open LogQuery.Grammar (IsTest LabelParts Kept RefusedIn)
open LogQuery.Tree (Within leavesAll listed)

/-- Signs in the tree of a query are spelled in one way only. -/
theorem leaf_sign {query : Text} {l : Token} (h : l ∈ (parse query).leaves)
    (hk : l.kind ∈ Token.signKinds) : l.text = l.kind.symbol.toList := by
  obtain ⟨t, ht, htext, hr⟩ := reads_token (parse_reads query) h
  have hkind : t.kind = l.kind := by
    rcases hr with hr | ⟨w, -, hw⟩
    · exact hr.symm
    · rw [hw] at hk
      simp [Token.signKinds] at hk
  rw [htext, Token.sign_text ht (hkind ▸ hk), hkind]

namespace FieldEntry

/-- Strings are compared by signs that are operators of their own. -/
theorem stringOperators_sign : ∀ k ∈ Grammar.matcherOps, ∃ op,
    (stringOperators.find? fun p => p.1 = k) = some (k, op) ∧
      op.symbol.toList = k.symbol.toList := by
  intro k hk
  simp only [Grammar.matcherOps, List.mem_cons, List.not_mem_nil, or_false] at hk
  rcases hk with rfl | rfl | rfl | rfl
  · exact ⟨.equal, rfl, rfl⟩
  · exact ⟨.notEqual, rfl, rfl⟩
  · exact ⟨.regexEqual, rfl, rfl⟩
  · exact ⟨.regexNotEqual, rfl, rfl⟩

theorem numberOperators_sign : ∀ k ∈ FieldSource.orders, ∃ op,
    (numberOperators.find? fun p => p.1 = k) = some (k, op) ∧
      op.symbol.toList = k.symbol.toList := by
  intro k hk
  simp only [FieldSource.orders, List.mem_cons, List.not_mem_nil, or_false] at hk
  rcases hk with rfl | rfl | rfl | rfl
  · exact ⟨.less, rfl, rfl⟩
  · exact ⟨.lessEqual, rfl, rfl⟩
  · exact ⟨.greater, rfl, rfl⟩
  · exact ⟨.greaterEqual, rfl, rfl⟩

theorem numberOperators_none {k : Kind} (hk : k ∉ FieldSource.orders) :
    (numberOperators.find? fun p => p.1 = k) = none := by
  rw [List.find?_eq_none]
  intro p hp he
  have hkeys : ∀ p ∈ numberOperators, p.1 ∈ FieldSource.orders := by
    simp [numberOperators, FieldSource.orders]
  exact hk (of_decide_eq_true he ▸ hkeys p hp)

end FieldEntry

section Entry

variable {query : Text} {types : LabelTypes} {f : Element} {c : Tree} {name : Text} {sign : Token}
  {rest : List Tree} {v : Option Token} {k : Kind}

/-- Of an element that stands for a comparison, what is known of its tokens. -/
structure Shows (query : Text) (f : Element) (c : Tree) (name : Text) (sign : Token)
    (rest : List Tree) (v : Option Token) : Prop where
  seen : Seen query f (.node .labelFilter [c])
  test : TestTokens name sign rest c
  value : ValueTokens sign.kind rest v

theorem shows_leaves (h : Shows query f c name sign rest v) :
    (Tree.node .labelFilter [c]).leaves = ⟨.identifier, name⟩ :: sign :: leavesAll rest := by
  rw [Tree.leaves, leavesAll, leavesAll, List.append_nil, h.test.leaves]

theorem signed_tells : ∀ k ∈ Grammar.comparisonOps ++ Grammar.matcherOps, k.tells = true := by
  decide

/-- A kind is looked for among the name, the sign and the value. -/
theorem shows_find (h : Shows query f c name sign rest v) (hk : k.tells = true) :
    ((Tree.node .labelFilter [c]).leaves.find? fun l => l.kind = k) =
      (⟨.identifier, name⟩ :: sign :: v.toList : List Token).find? fun l => l.kind = k := by
  have hsign : sign.tells = true := signed_tells _ h.test.signed
  rw [shows_leaves h, find_tells (p := fun l => l = k) (by simpa using hk),
    List.filter_cons_of_pos rfl, List.filter_cons_of_pos hsign, h.value.tells]

theorem shows_first (h : Shows query f c name sign rest v) (hk : k.tells = true)
    (hn : k.isNamed = true) (ht : k.isNode = false) :
    Option.Rel (Element.Located query) (f.first? k)
      (((⟨.identifier, name⟩ :: sign :: v.toList : List Token).find? fun l => l.kind = k).map
        .ofToken) := by
  rw [← shows_find h hk]
  exact first_token h.seen hn ht

theorem shows_name (h : Shows query f c name sign rest v) :
    ∃ e, f.first? .identifier = some e ∧ e.span.text query = name := by
  obtain ⟨e, he, ⟨_, hl⟩⟩ := Element.located_some
    (shows_first (k := .identifier) h rfl rfl rfl) rfl
  exact ⟨e, he, Element.at_text hl⟩

/-- The operator that is found is that of the sign. -/
theorem shows_operator (operators : List (Kind × Comparison))
    (h : Shows query f c name sign rest v)
    (hk : ∀ p ∈ operators, p.1 ∈ Grammar.comparisonOps ++ Grammar.matcherOps) :
    FieldEntry.operator? operators f =
      (operators.find? fun p => p.1 = sign.kind).map Prod.snd := by
  have hkinds : ∀ k ∈ Grammar.comparisonOps ++ Grammar.matcherOps,
      (k.isNamed = true ∧ k.isNode = false) ∧ k ∉ Grammar.valueKinds ∧ k ≠ .identifier := by
    decide
  rw [FieldEntry.operator?, find_seen operators h.seen fun p hp => (hkinds _ (hk p hp)).1]
  congr 1
  apply List.find?_congr
  intro p hp
  obtain ⟨-, hvalue, hname⟩ := hkinds _ (hk p hp)
  have hfind := shows_find h (signed_tells _ (hk p hp))
  have hv : ∀ x ∈ v, x.kind ≠ p.1 := fun x hx he => hvalue (he ▸ h.value.kind x hx)
  show ((Tree.node .labelFilter [c]).leaves.any fun l => l.kind = p.1) = decide (p.1 = sign.kind)
  rw [Bool.eq_iff_iff, List.any_eq_true, ← List.find?_isSome, hfind, List.find?_isSome]
  constructor
  · rintro ⟨l, hl, he⟩
    simp only [List.mem_cons, Option.mem_toList, decide_eq_true_eq] at hl he ⊢
    rcases hl with rfl | rfl | hl
    · exact (hname he.symm).elim
    · exact he.symm
    · exact (hv l hl he).elim
  · intro he
    exact ⟨sign, by simp, by simpa using (of_decide_eq_true he).symm⟩

theorem shows_sign (h : Shows query f c name sign rest v) :
    sign.text = sign.kind.symbol.toList := by
  have hsigns : Grammar.comparisonOps ++ Grammar.matcherOps ⊆ Token.signKinds := by decide
  refine leaf_sign (seen_leaves h.seen sign ?_) (hsigns h.test.signed)
  rw [shows_leaves h]
  simp

/-- Of the kinds of values, only that of the value is found. -/
theorem shows_value (h : Shows query f c name sign rest v) (hk : k ∈ Grammar.valueKinds) :
    Option.Rel (Element.Located query) (f.first? k)
      ((v.filter fun x => x.kind = k).map .ofToken) := by
  have hkinds : ∀ k ∈ Grammar.valueKinds, (k.isNamed = true ∧ k.isNode = false) ∧
      k ≠ .identifier ∧ k ∉ Grammar.comparisonOps ++ Grammar.matcherOps := by
    decide
  obtain ⟨⟨hnamed, hnode⟩, hname, hsign⟩ := hkinds k hk
  have hs : sign.kind ≠ k := fun he => hsign (he ▸ h.test.signed)
  have hfind : (⟨.identifier, name⟩ :: sign :: v.toList : List Token).find?
      (fun l => l.kind = k) = v.filter fun x => x.kind = k := by
    cases v with
    | none => simp [hname.symm, hs]
    | some x => by_cases hx : x.kind = k <;> simp [Option.filter, hname.symm, hs, hx]
  have hr := shows_first h (value_tells k hk) hnamed hnode
  rwa [hfind] at hr

theorem shows_value_none (h : Shows query f c name sign rest v) (hk : k ∈ Grammar.valueKinds)
    (hv : ∀ x ∈ v, x.kind ≠ k) : f.first? k = none := by
  have hr := shows_value h hk
  have hnone : (v.filter fun x => x.kind = k) = none := by
    cases v with
    | none => rfl
    | some x => simp [Option.filter, hv x rfl]
  rw [hnone, Option.map_none] at hr
  exact Element.located_none hr

theorem shows_value_some {x : Token} (h : Shows query f c name sign rest (some x)) :
    ∃ e, f.first? x.kind = some e ∧ Element.Located query e (.ofToken x) := by
  refine Element.located_some (shows_value h (h.value.kind x rfl)) ?_
  simp [Option.filter]

/-- A comparison without a value gives no entry. -/
theorem shows_nothing (h : Shows query f c name sign rest none) :
    FieldEntry.ofFilter? query types f = none := by
  obtain ⟨e, he, -⟩ := shows_name h
  have hnone : ∀ k ∈ Grammar.valueKinds, f.first? k = none := fun k hk =>
    shows_value_none h hk nofun
  rw [FieldEntry.ofFilter?, he, hnone .string (by decide)]
  simp [hnone .number (by decide), hnone .duration (by decide), hnone .bytes (by decide)]

/-- The filter that a comparison with a value gives. -/
theorem shows_make (types : LabelTypes) {x : Token} {e : Element} {op : Comparison} {value : Text}
    (h : Shows query f c name sign rest (some x)) (he : e.span.text query = name)
    (hop : op.symbol.toList = sign.kind.symbol.toList)
    (hvalue : value = (FieldSource.mk ⟨.identifier, name⟩ sign x).operand) :
    ∃ field, FieldEntry.make query types f e op value = .field field ∧
      (FieldSource.mk ⟨.identifier, name⟩ sign x).Gives field :=
  ⟨_, rfl, he, by rw [shows_sign h, ← hop], hvalue⟩

theorem shows_quoted {x : Token} (h : Shows query f c name sign rest (some x))
    (hx : x.kind = .string) : x.IsQuoted := by
  refine seen_quoted h.seen ?_ hx
  have hin : x ∈ (leavesAll rest).filter Token.tells := by simp [h.value.tells]
  rw [shows_leaves h]
  simp [List.mem_of_mem_filter hin]

/-- A comparison of strings gives a filter. -/
theorem shows_string {x : Token} (h : Shows query f c name sign rest (some x))
    (hx : x.kind = .string) : ∃ field, FieldEntry.ofFilter? query types f = some (.field field) ∧
      (FieldSource.mk ⟨.identifier, name⟩ sign x).Gives field := by
  obtain ⟨e, he, htext⟩ := shows_name h
  obtain ⟨s, hs, ⟨_, hl⟩⟩ := shows_value_some h
  have hvalue : s.span.unquoted query = x.value := at_value hl (shows_quoted h hx)
  obtain ⟨op, hop, hsymbol⟩ :=
    FieldEntry.stringOperators_sign _ (h.value.string x rfl hx)
  have hoperator : FieldEntry.operator? FieldEntry.stringOperators f = some op := by
    rw [shows_operator _ h (by simp [FieldEntry.stringOperators, Grammar.comparisonOps,
      Grammar.matcherOps]), hop]
    rfl
  obtain ⟨field, hfield, hgives⟩ := shows_make types h htext hsymbol
    (show s.span.unquoted query = _ by rw [hvalue, FieldSource.operand, if_pos hx])
  rw [hx] at hs
  exact ⟨field, by rw [FieldEntry.ofFilter?, he, hs]; simp [hoperator, hfield], hgives⟩

/-- A comparison of amounts gives a filter just if it is by size. Otherwise its text is kept. -/
theorem shows_amount (types : LabelTypes) {x : Token} (h : Shows query f c name sign rest (some x))
    (hx : x.kind ≠ .string) :
    (sign.kind ∈ FieldSource.orders ∧ ∃ field,
        FieldEntry.ofFilter? query types f = some (.field field) ∧
          (FieldSource.mk ⟨.identifier, name⟩ sign x).Gives field) ∨
      (sign.kind ∉ FieldSource.orders ∧
        FieldEntry.ofFilter? query types f = some (.unknown (f.span.text query))) := by
  obtain ⟨e, he, htext⟩ := shows_name h
  obtain ⟨s, hs, ⟨_, hl⟩⟩ := shows_value_some h
  have hnone : ∀ k ∈ Grammar.valueKinds, k ≠ x.kind → f.first? k = none := fun k hk hne =>
    shows_value_none h hk fun y hy he => by
      obtain rfl := Option.some.inj hy
      exact hne he.symm
  have hnumber : [Kind.number, .duration, .bytes].findSome? f.first? = some s := by
    have hkind := h.value.kind x rfl
    simp only [Grammar.valueKinds, List.mem_cons, List.not_mem_nil, or_false, hx, false_or] at hkind
    rcases hkind with hk | hk | hk
    · rw [hk] at hs
      simp [hs]
    · rw [hk] at hs hnone
      simp [hnone .number (by decide) (by decide), hs]
    · rw [hk] at hs hnone
      simp [hnone .number (by decide) (by decide), hnone .duration (by decide) (by decide), hs]
  have hstring := hnone .string (by decide) hx.symm
  have hoperator := shows_operator FieldEntry.numberOperators h
    (by simp [FieldEntry.numberOperators, Grammar.comparisonOps, Grammar.matcherOps])
  by_cases ho : sign.kind ∈ FieldSource.orders
  · obtain ⟨op, hop, hsymbol⟩ := FieldEntry.numberOperators_sign _ ho
    rw [hop] at hoperator
    obtain ⟨field, hfield, hgives⟩ := shows_make types h htext hsymbol
      (show s.span.text query = _ by rw [Element.at_text hl, FieldSource.operand, if_neg hx]; rfl)
    refine Or.inl ⟨ho, field, ?_, hgives⟩
    rw [FieldEntry.ofFilter?, he, hstring]
    simp [hnumber, hoperator, hfield]
  · rw [FieldEntry.numberOperators_none ho] at hoperator
    refine Or.inr ⟨ho, ?_⟩
    rw [FieldEntry.ofFilter?, he, hstring]
    simp [hnumber, hoperator]

/-- A check for errors shows in the name. -/
theorem shows_check (h : Shows query f c name sign rest v) :
    FieldEntry.isErrorCheck query f = "__error__".toList.isPrefixOf name := by
  obtain ⟨ahead, hs⟩ := h.seen
  rw [sight_check hs (sight_kind hs), shows_leaves h]
  rfl

end Entry

section Leaf

variable {query : Text} {cut : Bool} {e f : Element} {u inner : Tree} {ds more : List Tree}

/-- What the left-most leaf of a label filter is: its left-most comparison, or parentheses that are
empty or were refused. -/
inductive Leaf (query : Text) (cut : Bool) (f : Element) (u : Tree) : Prop
  | test (name : Text) (sign : Token) (rest : List Tree) (c : Tree) (hleft : u.leftmost? = some c)
    (hseen : Seen query f (.node .labelFilter [c])) (htest : IsTest name sign rest c)
  | empty (hleft : u.leftmost? = none) (herror : .error ∈ u.kinds)
    (hname : f.first? .identifier = none)
  | refused (w : Tree) (hleft : u.leftmost? = none) (herror : .error ∈ u.kinds)
    (hcut : RefusedIn cut [u]) (hseen : Seen query f w) (hin : ∀ l ∈ w.leaves, l ∈ u.leaves)

/-- The first part that is listed stands for the first child. -/
theorem seen_first {k : Kind} {s : Span} {d : Element} {es : List Element} {cs : List Tree}
    (h : Seen query (.mk k s (d :: es)) u) (hl : listed u.children = inner :: cs) :
    Seen query d inner := by
  have hcs : List.Forall₂ (Seen query) (d :: es) (listed u.children) := seen_children h
  rw [hl] at hcs
  cases hcs with
  | cons hd _ => exact hd

theorem leftmost_label : (Tree.node .labelFilter ds).leftmost? = Tree.leftmostAll? ds := by
  rw [Tree.leftmost?, if_pos rfl]

/-- What the first of the listed parts of a label filter is. -/
inductive First (cut : Bool) (ds : List Tree) : Tree → Prop
  | test (name : Text) (sign : Token) (rest : List Tree) (c : Tree) (h : IsTest name sign rest c)
    (hds : ds = [c]) (hleft : Tree.leftmostAll? ds = some c) : First cut ds c
  | label (inner : Tree) (hk : inner.kind = .labelFilter) (hmem : inner ∈ ds)
    (hleft : inner.children ≠ [] → Tree.leftmostAll? ds = inner.leftmost?) : First cut ds inner
  | error (us : List Token) (hleft : Tree.leftmostAll? ds = none)
    (hmem : .node .error (us.map .ofToken) ∈ ds)
    (hname : (∀ l ∈ leavesAll ds, l.kind ≠ .identifier) ∨ RefusedIn cut ds) :
    First cut ds (.node .error (us.map .ofToken))

theorem test_leftmost {name : Text} {sign : Token} {rest : List Tree} {c : Tree}
    (h : IsTest name sign rest c) : Tree.leftmostAll? [c] = some c := by
  cases h with
  | plain k cs hk h =>
    have hne : k ≠ .labelFilter := (by decide : ∀ k ∈ Grammar.testKinds, k ≠ .labelFilter) k hk
    rw [Tree.leftmostAll?, Tree.leftmost?, if_neg hne, if_pos hk]
  | unit k cs hk h => rfl

theorem inner_leftmost (hc : inner.children ≠ []) :
    Tree.leftmostAll? (inner :: more) = inner.leftmost? := by
  cases inner with
  | leaf k x => exact (hc rfl).elim
  | node k cs => rfl

theorem labelParts_first (h : LabelParts cut ds) :
    ∃ d more, listed ds = d :: more ∧ First cut ds d := by
  cases h with
  | test name sign rest c h =>
    have hnamed : c.kind.isNamed = true :=
      (by decide : ∀ k ∈ Grammar.testKinds, k.isNamed = true) _ (test_tokens h).kind
    exact ⟨c, _, Tree.listed_named hnamed, .test name sign rest c h rfl (test_leftmost h)⟩
  | joined lhs more h =>
    exact ⟨lhs, _, Tree.listed_named (h ▸ rfl), .label lhs h (.head _) inner_leftmost⟩
  | nested x inner more h =>
    have hl : listed (inner :: more) = inner :: listed more := Tree.listed_named (h ▸ rfl)
    exact ⟨inner, _, (Tree.listed_unnamed rfl).trans hl, .label inner h (by simp) inner_leftmost⟩
  | empty x close h =>
    refine ⟨_, _, rfl, .error [] rfl (by simp) (Or.inl ?_)⟩
    rcases h with ⟨k, hk, y, rfl⟩ | rfl
    · obtain rfl := List.mem_singleton.mp hk
      simp [leavesAll, Tree.leaves]
    · simp [leavesAll, Tree.leaves]
  | refused x inner more h =>
    have hin : RefusedIn cut (.leaf .lParen x :: inner :: more) :=
      Grammar.refusedIn_tail (Grammar.refusedIn_head h) _
    obtain ⟨-, us, -, rfl⟩ := h
    exact ⟨_, _, rfl, .error us rfl (by simp) (Or.inr hin)⟩

/-- The first element in a label filter is the first named part of it. -/
theorem first_part {k : Kind} {s : Span} {d : Element} {es : List Element}
    (h : Seen query (.mk k s (d :: es)) u) (hk : u.kind = .labelFilter) (hkept : Kept cut [u]) :
    ∃ ds inner, u = .node .labelFilter ds ∧ Seen query d inner ∧ First cut ds inner := by
  cases u with
  | leaf l x => cases seen_children h
  | node l ds =>
    obtain rfl : l = .labelFilter := hk
    obtain ⟨inner, more, hlisted, hfirst⟩ := labelParts_first (Grammar.kept_head hkept)
    exact ⟨ds, inner, rfl, seen_first h hlisted, hfirst⟩

/-- The leaf that is reached from a label filter is the left-most comparison in it. -/
theorem leaf_of (h : Seen query e u) (hk : u.kind = .labelFilter) (hkept : Kept cut [u])
    (hf : e.leftLeaf? [.labelFilter] = some f) : Leaf query cut f u := by
  fun_induction Element.leftLeaf? [.labelFilter] e generalizing u with
  | case1 => cases hf
  | case2 k s d es hd ih =>
    have hd : d.kind = .labelFilter := by simpa using hd
    obtain ⟨ds, inner, rfl, hseen, hfirst⟩ := first_part h hk hkept
    have hi : inner.kind = .labelFilter := seen_kind hseen ▸ hd
    cases hfirst with
    | test name sign rest c hc =>
      have hkind := (test_tokens hc).kind
      rw [hi] at hkind
      exact absurd hkind (by decide)
    | error us => cases hi
    | label _ _ hmem hleft =>
      -- One step to the left: what is there has the same left-most comparison.
      have hne : inner.children ≠ [] := by
        intro hn
        have hcs := seen_children hseen
        rw [hn] at hcs
        cases d with
        | mk k s ds =>
          cases hcs
          cases hf
      have hleft := leftmost_label.trans (hleft hne)
      have hin : .error ∈ inner.kinds → .error ∈ (Tree.node .labelFilter ds).kinds := fun he =>
        .tail _ (Tree.mem_kindsAll.mpr ⟨inner, hmem, he⟩)
      cases ih hseen hi (Grammar.kept_mem (Grammar.kept_inside hkept) hmem) hf with
      | test name sign rest c hl hs ht => exact .test name sign rest c (hleft.trans hl) hs ht
      | empty hl he hn => exact .empty (hleft.trans hl) (hin he) hn
      | refused w hl he hc hw hsub =>
        have hcut := Grammar.refusedIn_node (Grammar.refusedIn_mem hc hmem) .labelFilter
        exact .refused w (hleft.trans hl) (hin he) hcut hw fun l hl =>
          Tree.mem_leavesAll.mpr ⟨inner, hmem, hsub l hl⟩
  | case3 k s d es hd =>
    obtain rfl := Option.some.inj hf
    have hd : d.kind ≠ .labelFilter := by simpa using hd
    obtain ⟨ds, inner, rfl, hseen, hfirst⟩ := first_part h hk hkept
    have hi : inner.kind ≠ .labelFilter := seen_kind hseen ▸ hd
    cases hfirst with
    | test name sign rest c hc hds hleft =>
      subst hds
      exact .test name sign rest _ (leftmost_label.trans hleft) h hc
    | label _ hk => exact (hi hk).elim
    | error us hleft hmem hname =>
      have herror : .error ∈ (Tree.node .labelFilter ds).kinds :=
        .tail _ (Tree.mem_kindsAll.mpr ⟨_, hmem, .head _⟩)
      rcases hname with hname | hcut
      · exact .empty (leftmost_label.trans hleft) herror (first_token_none h rfl rfl hname)
      · exact .refused _ (leftmost_label.trans hleft) herror
          (Grammar.refusedIn_node hcut .labelFilter) h fun _ => id

end Leaf

section Queries

variable {query : Text} {u : Tree}

/-- Some rule was entered deeper than rules may nest. -/
def refused (query : Text) : Bool :=
  (Grammar.contents Grammar.maxLevels (significant query)).cut.isSome

theorem stripped_kept (query : Text) : Kept (refused query) (stripped query) :=
  Grammar.contents_kept _ _

/-- The outermost label filters of a query, without blanks and comments. -/
def labelFilters (query : Text) : List Tree := (parse query).strip.outermost .labelFilter

theorem labelFilters_eq (query : Text) :
    labelFilters query = Tree.outermostAll .labelFilter (stripped query) := by
  rw [labelFilters, parse_strip]
  rfl

theorem forall_some {α β γ : Type} {R : α → β → Prop} {give : α → Option γ} {as : List α}
    {bs : List β} {cs : List γ} (h : List.Forall₂ R as bs) (hg : as.map give = cs.map some) :
    List.Forall₂ (fun b c => ∃ a, R a b ∧ give a = some c) bs cs := by
  induction h generalizing cs with
  | nil =>
    obtain rfl : cs = [] := List.map_eq_nil_iff.mp hg.symm
    exact .nil
  | cons hab _ ih =>
    obtain ⟨c, cs, rfl, hc, hcs⟩ := List.map_eq_cons_iff.mp hg.symm
    exact .cons ⟨_, hab, hc.symm⟩ (ih hcs.symm)

theorem labelFilters_within (h : u ∈ labelFilters query) :
    u.kind = .labelFilter ∧ ∃ before after, Within (stripped query) before u after := by
  rw [labelFilters_eq] at h
  exact Tree.outermostAll_within _ h

theorem labelFilters_seen (query : Text) :
    List.Forall₂ (Seen query) (outermost query .labelFilter) (labelFilters query) := by
  have hroot : outermost query .labelFilter =
      Element.outermostAll .labelFilter (rootElement query).children := by
    rw [outermost, rootElement, parse_children]
    rfl
  rw [hroot, labelFilters_eq]
  exact Element.outermostAll_seen _ (seen_root query)

/-- The left-most leaves of a query are what is reached from its outermost label filters. -/
theorem leftLeaves_leaf (query : Text) :
    List.Forall₂ (fun u f => u ∈ labelFilters query ∧ Leaf query (refused query) f u)
      (labelFilters query) (leftLeaves query [.labelFilter]) := by
  have hreach : List.Forall₂ (fun u f => ∃ e, Seen query e u ∧
      e.leftLeaf? [.labelFilter] = some f) (labelFilters query) (leftLeaves query [.labelFilter]) :=
    forall_some (labelFilters_seen query)
      (outermost_leftLeaves _ (labelFilter_children query))
  refine ((List.forall₂_and_left _ _).mpr ⟨fun u hu => hu, hreach⟩).imp ?_
  rintro u f ⟨hu, e, he, hf⟩
  obtain ⟨hk, before, after, hw⟩ := labelFilters_within hu
  exact ⟨hu, leaf_of he hk (Grammar.kept_within (stripped_kept query) hw) hf⟩

end Queries

end LogQuery
