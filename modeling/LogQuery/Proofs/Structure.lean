import LogQuery.Drilldown
import LogQuery.Proofs.Grammar.Placed
import LogQuery.Proofs.Tree.Filled
import LogQuery.Query

/-! What the tree of every query keeps to, however malformed the query is. -/
namespace LogQuery

namespace Tree

variable {c : Tree} {cs ds : List Tree} {ts us before after : List Token} {k : Kind}

/-- What a node below the root keeps to, if it begins at some tokens. -/
structure Sturdy (tokens : List Token) (k : Kind) (cs : List Tree) : Prop where
  error : k = .error → cs = (tokens.take cs.length).map .ofToken
  unknown : k ≠ .error → ∀ x, .leaf .unknown x ∉ cs
  matcher : k = .matcher →
    (∃ x more, cs = .leaf .identifier x :: more) ∧
      ∃ op ∈ .error :: Grammar.matcherOps, ∃ stray ∈ [[], [.error]], ∃ value ∈ [.string, .error],
        word cs = .identifier :: op :: (stray ++ [value])
  selector : k = .selector → ∃ x more, cs = .leaf .lBrace x :: more
  lineFilter : k = .lineFilter →
    ∃ op ∈ Grammar.lineOps, ∃ x more, cs = .node .filter [.leaf op x] :: more
  labelFilter : k = .labelFilter → ∃ c ∈ cs, c.kind.isNamed = true

/-- No blank comes between a node and its first child. -/
theorem fillAll_head (hd : ts.dropWhile Token.isTrivia = ts) (c : Tree) (cs : List Tree) :
    (fillAll (c :: cs) ts).1 = (c.fill ts).1 :: (fillAll cs (c.fill ts).2).1 := by
  have ht : ts.takeWhile Token.isTrivia = [] :=
    List.takeWhile_eq_nil_iff.mpr (List.dropWhile_eq_self_iff.mp hd)
  simp only [fillAll, hd, ht, List.map_nil, List.nil_append]

/-- Tokens in a row are filled up to a run of all tokens. -/
theorem fillAll_tokens (h : ∃ after, Token.significant ts = us ++ after) :
    ∃ n, (fillAll (us.map ofToken) ts).1 = (ts.take n).map ofToken := by
  induction us generalizing ts with
  | nil => exact ⟨0, rfl⟩
  | cons u us ih =>
    obtain ⟨after, hs⟩ := h
    have hsig : Token.significant (ts.dropWhile Token.isTrivia) = u :: (us ++ after) := by
      rw [significant_dropWhile, hs]
      rfl
    obtain ⟨vs, hv, hvs⟩ := eq_cons_of_significant (List.dropWhile_idempotent _ _) hsig
    obtain ⟨n, hn⟩ := @ih vs ⟨after, hvs⟩
    have hsplit := List.takeWhile_append_dropWhile (p := Token.isTrivia) (l := ts)
    rw [hv] at hsplit
    have htake : ts.take ((ts.takeWhile Token.isTrivia).length + (n + 1)) =
        ts.takeWhile Token.isTrivia ++ u :: vs.take n := by
      generalize ts.takeWhile Token.isTrivia = trivia at hsplit ⊢
      rw [← hsplit, List.take_length_add_append, List.take_succ_cons]
    refine ⟨(ts.takeWhile Token.isTrivia).length + (n + 1), ?_⟩
    have hone : (fillAll ((u :: us).map ofToken) ts).1 =
        (ts.takeWhile Token.isTrivia).map ofToken ++ ofToken u ::
          (fillAll (us.map ofToken) ((ts.dropWhile Token.isTrivia).drop 1)).1 := rfl
    rw [hone, htake, hv, List.drop_one, List.tail_cons, hn, List.map_append, List.map_cons]

/-- Each child is there with its kind when the trivia is put back. -/
theorem mem_fillAll (h : c ∈ cs) (ts : List Token) :
    ∃ d ∈ (fillAll cs ts).1, d.kind = c.kind := by
  induction h generalizing ts with
  | head cs =>
    refine ⟨_, ?_, fill_kind c (ts.dropWhile Token.isTrivia)⟩
    simp [fillAll]
  | tail b _ ih =>
    obtain ⟨d, hd, hk⟩ := ih (b.fill (ts.dropWhile Token.isTrivia)).2
    refine ⟨d, ?_, hk⟩
    simp [fillAll, hd]

/-- No leaf but trivia is added. -/
theorem fillAll_leaf {x : Text} (hk : k.isTrivia = false) (h : .leaf k x ∈ (fillAll cs ts).1) :
    .leaf k x ∈ cs := by
  induction cs generalizing ts with
  | nil => cases h
  | cons c cs ih =>
    simp only [fillAll, List.mem_append, List.mem_map, List.mem_cons] at h
    rcases h with ⟨t, ht, he⟩ | he | h
    · have htrivia : t.isTrivia = true := List.mem_takeWhile_imp ht
      rw [ofToken, leaf.injEq] at he
      rw [Token.isTrivia, he.1, hk] at htrivia
      cases htrivia
    · cases c with
      | leaf l y =>
        rw [fill] at he
        exact he ▸ .head _
      | node l ds => cases he
    · exact .tail _ (ih h)

theorem fill_node (k : Kind) (cs : List Tree) (ts : List Token) :
    (node k cs).fill ts = (node k (fillAll cs ts).1, (fillAll cs ts).2) := rfl

theorem expected_kind {ks : List Kind} (h : Grammar.Expected ks c) : c.kind ∈ .error :: ks := by
  rcases h with ⟨k, hk, x, rfl⟩ | rfl
  · exact .tail _ hk
  · exact .head _

/-- The kinds of the parts of a matcher. -/
theorem matcherParts_word {name : Text} {op value : Tree} {stray : List Tree}
    (h : Grammar.MatcherParts cs name op stray value) :
    ∃ op ∈ .error :: Grammar.matcherOps, ∃ stray ∈ [[], [.error]], ∃ value ∈ [.string, .error],
      word cs = .identifier :: op :: (stray ++ [value]) := by
  have hop := expected_kind h.op
  have hvalue := expected_kind h.value
  have hopt : op.kind.isTrivia = false :=
    (by decide : ∀ k ∈ .error :: Grammar.matcherOps, k.isTrivia = false) _ hop
  have hvt : value.kind.isTrivia = false :=
    (by decide : ∀ k ∈ [Kind.error, .string], k.isTrivia = false) _ hvalue
  refine ⟨op.kind, hop, stray.map kind, ?_, value.kind, List.mem_pair.mpr ?_, ?_⟩
  · rcases h.stray with rfl | ⟨us, _, rfl⟩
    · simp
    · simp [kind]
  · exact (List.mem_pair.mp hvalue).symm
  · have hmap : cs.map kind = .identifier :: op.kind :: (stray.map kind ++ [value.kind]) := by
      rw [h.children, List.map_cons, List.map_cons, List.map_append]
      rfl
    rw [word, hmap]
    apply List.filter_eq_self.mpr
    intro l hl
    simp only [List.mem_cons, List.mem_append, List.mem_map, List.not_mem_nil, or_false] at hl
    rcases hl with rfl | rfl | ⟨c, hc, rfl⟩ | rfl
    · rfl
    · simp [hopt]
    · rcases h.stray with hn | ⟨us, _, hn⟩
      · rw [hn] at hc
        cases hc
      · rw [hn] at hc
        obtain rfl := List.mem_singleton.mp hc
        rfl
    · simp [hvt]

/-- What holds of a node of the grammar by the tokens it begins at holds of it once it is filled. -/
theorem sturdy_of_site (hs : Grammar.Site (Token.significant ts) k ds)
    (hd : ts.dropWhile Token.isTrivia = ts) : Sturdy ts k (fillAll ds ts).1 := by
  constructor
  · intro hk
    have htake : ∃ after, Token.significant ts = (Token.significant ts).take ds.length ++ after :=
      ⟨_, (List.take_append_drop _ _).symm⟩
    obtain ⟨n, hn⟩ := fillAll_tokens htake
    rw [← hs.error hk] at hn
    rw [hn, List.length_map, List.length_take]
    congr 1
    rcases Nat.le_total n ts.length with h | h
    · rw [Nat.min_eq_left h]
    · rw [Nat.min_eq_right h, List.take_of_length_le h, List.take_length]
  · intro hk x hx
    exact hs.unknown hk x (fillAll_leaf rfl hx)
  · intro hk
    obtain ⟨name, op, stray, value, hm⟩ := hs.matcher hk
    refine ⟨?_, ?_⟩
    · rw [hm.children, fillAll_head hd]
      exact ⟨name, _, rfl⟩
    · rw [word_fillAll]
      exact matcherParts_word hm
  · intro hk
    obtain ⟨hb, ht⟩ := hs.selector hk
    obtain ⟨t, us, he, hkind⟩ := Grammar.atKind_cons hb
    rw [he] at ht
    obtain ⟨more, hds⟩ : ∃ more, ds = .ofToken t :: more := by
      have hn : (Grammar.selector (t :: us)).trees = [.node .selector (.ofToken t :: _)] := rfl
      rw [hn] at ht
      exact ⟨_, ((node.inj (List.cons.inj ht).1).2).symm⟩
    rw [hds, fillAll_head hd, ofToken, hkind]
    exact ⟨t.text, _, rfl⟩
  · intro hk
    obtain ⟨op, hop, x, more, rfl⟩ := hs.lineFilter hk
    refine ⟨op, hop, x, ?_⟩
    rw [fillAll_head hd, fill_node, fillAll_head hd]
    exact ⟨_, rfl⟩
  · intro hk
    obtain ⟨c, hc, _⟩ := hs.labelFilter hk
    obtain ⟨d, hd, hkind⟩ := mem_fillAll (List.mem_of_find?_eq_some hc) ts
    exact ⟨d, hd, by rw [hkind]; simpa using List.find?_some hc⟩

end Tree

open LogQuery.Tree (Within Sturdy Filled)

variable {query : Text} {before after : List Token} {k : Kind} {cs : List Tree} {e f : Element}
  {u : Tree}

theorem stripped_sites (query : Text) : Grammar.Sites (stripped query) (significant query) :=
  (Grammar.contents_sited Grammar.maxLevels (significant query)).sites

theorem parse_sturdy (h : Within (parse query).children before (.node k cs) after) :
    Sturdy ((Token.lex query).drop before.length) k cs := by
  obtain ⟨ahead, ds, behind, hf⟩ := parse_filled h
  have hs := stripped_sites query ahead k ds behind hf.origin
  rw [significant, ← hf.significant] at hs
  rw [hf.children]
  exact Tree.sturdy_of_site hs hf.opens

/-- The root holds no tokens, but for blanks and comments. -/
theorem parse_word (query : Text) :
    Tree.word (parse query).children ∈ [[.expr], [.expr, .error], [.error]] := by
  have hr := Grammar.queryTree_reads Grammar.maxLevels (significant query)
  have hw : Tree.word (parse query).children = Tree.word (stripped query) := by
    show Tree.word ((Tree.fillAll (stripped query) (Token.lex query)).1 ++
      (Tree.fillAll (stripped query) (Token.lex query)).2.map .ofToken) = _
    have htrivia := Tree.word_trivia (Tree.fillAll_rest_trivia (stripped_reads query))
    rw [Tree.word_append, Tree.word_fillAll, htrivia, List.append_nil]
  have hk : (stripped query).map Tree.kind ∈ [[.expr], [.expr, .error], [.error]] :=
    Grammar.contents_kinds 255 (significant query)
  have hn : ∀ ks ∈ [[Kind.expr], [.expr, .error], [.error]],
      ks.filter (fun k => !k.isTrivia) = ks := by decide
  rw [hw, Tree.word, hn _ hk]
  exact hk

theorem reads_token {ts ls : List Token} {l : Token} (h : List.Forall₂ Token.ReadAs ts ls)
    (hl : l ∈ ls) : ∃ t ∈ ts, t.ReadAs l := by
  induction h with
  | nil => cases hl
  | cons hr _ ih =>
    rcases List.mem_cons.mp hl with rfl | hl
    · exact ⟨_, .head _, hr⟩
    · obtain ⟨t, ht, hr⟩ := ih hl
      exact ⟨t, .tail _ ht, hr⟩

theorem leaf_ne_nil {l : Token} (h : l ∈ (parse query).leaves) : l.text ≠ [] := by
  obtain ⟨t, ht, hr⟩ := reads_token (parse_reads query) h
  rw [hr.1]
  exact Token.lex_text_ne_nil ht

theorem reads_leaf {ts ls : List Token} {t : Token} (h : List.Forall₂ Token.ReadAs ts ls)
    (ht : t ∈ ts) : ∃ l ∈ ls, t.ReadAs l := by
  induction h with
  | nil => cases ht
  | cons hr _ ih =>
    rcases List.mem_cons.mp ht with rfl | ht
    · exact ⟨_, .head _, hr⟩
    · obtain ⟨l, hl, hr⟩ := ih ht
      exact ⟨l, .tail _ hl, hr⟩

/-- A character that is no token makes a query invalid: it is in an error node. -/
theorem unknown_invalid {t : Token} (ht : t ∈ Token.lex query) (hk : t.kind = .unknown) :
    isValid query = false := by
  obtain ⟨l, hl, hlk⟩ : ∃ l ∈ (parse query).leaves, l.kind = .unknown := by
    obtain ⟨l, hl, hr⟩ := reads_leaf (parse_reads query) ht
    refine ⟨l, hl, ?_⟩
    rcases hr.2 with h | ⟨w, hw, _⟩
    · exact h.trans hk
    · simp only [Token.spells, Bool.and_eq_true, decide_eq_true_eq] at hw
      rw [hw.1] at hk
      cases hk
  have hword := parse_word query
  rw [parse_children] at hl
  have herror : .error ∈ Tree.kindsAll (parse query).children := by
    rcases Tree.leaf_within _ hl with hm | ⟨before, k, ds, after, hw, hm⟩
    · have hu : .unknown ∈ Tree.word (parse query).children := by
        rw [hlk] at hm
        exact List.mem_filter.mpr ⟨List.mem_map_of_mem hm, rfl⟩
      exact absurd hu ((by decide : ∀ ks ∈ [[Kind.expr], [.expr, .error], [.error]],
        .unknown ∉ ks) _ hword)
    · rw [hlk] at hm
      by_cases hke : k = .error
      · exact hke ▸ Tree.within_kinds hw
      · exact absurd hm ((parse_sturdy hw).unknown hke _)
  have hnamed : Kind.isNamed .error = true := rfl
  have hholds : (parse query).holds .error = true := by
    rw [parse_children, Tree.holds, Tree.kinds]
    simp [herror]
  simp [isValid, hasElement, hnamed, hholds]

/-- No leaf has the kind of a node. -/
theorem leaf_kind {l : Token} (h : l ∈ (parse query).leaves) : l.kind.isNode = false := by
  obtain ⟨t, ht, hr⟩ := reads_token (parse_reads query) h
  rcases hr.2 with hk | ⟨w, _, hk⟩
  · rw [hk]
    exact (by decide : ∀ k ∈ Token.scanKinds, k.isNode = false) _ (Token.lex_kind ht)
  · rw [hk]
    cases w <;> decide

theorem within_leaf {x : Text} (h : Within (parse query).children before (.leaf k x) after) :
    k.isNode = false :=
  leaf_kind (leaf_within_root h (List.mem_singleton_self _))

/-- An element of a kind of nodes stands for a node. -/
theorem elements_node (hk : k.isNode = true) (hroot : k ≠ .logQl)
    (h : e ∈ (rootElement query).walk fun l => l = k) :
    ∃ before cs after, Within (parse query).children before (.node k cs) after ∧
      Element.At query (Token.spelled before) (.node k cs) e := by
  obtain ⟨before, u, after, hw, hu, rfl⟩ := walk_parse (by simpa using hroot.symm) h
  cases u with
  | leaf l x =>
    obtain rfl : l = k := of_decide_eq_true hu
    exact absurd hk (Bool.eq_false_iff.mp (within_leaf hw))
  | node l cs =>
    obtain rfl : l = k := of_decide_eq_true hu
    exact ⟨before, cs, after, hw, within_at hw⟩

theorem elements_walk (query : Text) (k : Kind) :
    elements query (some [k]) = (rootElement query).walk fun l => l = k := by
  rw [elements]
  congr 1
  funext l
  simp

/-- Every matcher has a label name. -/
theorem matcher_named (query : Text) (selector : Span) :
    ∀ e ∈ elements query (some [.matcher]), (Matcher.ofElement? query selector e).isSome := by
  intro e he
  rw [elements_walk] at he
  obtain ⟨before, cs, after, hw, ha⟩ := elements_node rfl (by decide) he
  obtain ⟨⟨x, more, rfl⟩, -⟩ := (parse_sturdy hw).matcher rfl
  have hname : (e.first? .identifier).isSome = true := by
    rw [Element.first_isSome ha]
    rfl
  rw [Matcher.ofElement?, Option.isSome_map]
  exact hname

/-- Every line filter has an operator of its own. -/
theorem lineFilter_operator (query : Text) :
    ∀ e ∈ elements query (some [.lineFilter]), (LineEntry.operator? e).isSome := by
  intro e he
  rw [elements_walk] at he
  obtain ⟨before, cs, after, hw, ha⟩ := elements_node rfl (by decide) he
  obtain ⟨op, hop, x, more, rfl⟩ := (parse_sturdy hw).lineFilter rfl
  have hfirst : (e.first? op).isSome = true := by
    rw [Element.first_isSome ha]
    simp only [Grammar.lineOps, List.mem_cons, List.not_mem_nil, or_false] at hop
    rcases hop with rfl | rfl | rfl | rfl | rfl | rfl <;> rfl
  have hentry : ∀ op ∈ Grammar.lineOps, ∃ entry ∈ LineEntry.operators, entry.1 = op := by
    simp [Grammar.lineOps, LineEntry.operators]
  obtain ⟨entry, hm, rfl⟩ := hentry op hop
  rw [LineEntry.operator?, Option.isSome_map, List.find?_isSome]
  exact ⟨entry, hm, hfirst⟩

/-- No line filter is left out of the filters of a query. -/
theorem lineFilter_known (query : Text) :
    (LineEntry.ofQuery query).filterMap LineEntry.unknown? = [] := by
  rw [List.filterMap_eq_nil_iff]
  intro entry hentry
  rw [LineEntry.ofQuery, List.mem_flatMap] at hentry
  obtain ⟨⟨filter, index⟩, hm, hentry⟩ := hentry
  have hfilter : filter ∈ elements query (some [.lineFilter]) := by
    have hmap := List.mem_map_of_mem (f := Prod.fst) hm
    rwa [List.zipIdx_map_fst] at hmap
  obtain ⟨string, -, hstring⟩ := List.mem_filterMap.mp hentry
  obtain ⟨op, hop⟩ := Option.isSome_iff_exists.mp (lineFilter_operator query filter hfilter)
  simp only [LineEntry.ofString?, hop] at hstring
  split at hstring
  · cases hstring
  · cases op <;>
    · cases hstring
      rfl

theorem leftLeaf_isSome (e : Element) (he : e.kind = k)
    (h : ∀ f ∈ e.walk fun l => l = k, f.children ≠ []) : (e.leftLeaf? [k]).isSome := by
  fun_induction Element.leftLeaf? [k] e with
  | case1 l s =>
    have hself := h _ (Element.mem_walk_self (by simpa using he))
    exact (hself rfl).elim
  | case2 l s c cs hc ih =>
    refine ih (by simpa using hc) fun f hf => ?_
    exact h f (Element.mem_walk_child (Element.mem_walkAll (.head _) hf))
  | case3 => rfl

mutual

/-- Where every element of a kind has parts, each outermost one has its left-most leaf. -/
theorem outermost_leftLeaves : (e : Element) → (∀ f ∈ e.walk fun l => l = k, f.children ≠ []) →
    (e.outermost k).map (·.leftLeaf? [k]) = (e.leftLeaves [k]).map some
  | .mk l s cs, h => by
    by_cases hl : l = k
    · obtain ⟨leaf, hleaf⟩ := Option.isSome_iff_exists.mp (leftLeaf_isSome (.mk l s cs) hl h)
      simp [Element.outermost, Element.leftLeaves, hl, hl ▸ hleaf]
    · have hcs := outermostAll_leftLeaves cs fun f hf => h f (Element.mem_walk_child hf)
      simpa [Element.outermost, Element.leftLeaves, hl] using hcs

theorem outermostAll_leftLeaves : (es : List Element) →
    (∀ f ∈ Element.walkAll (fun l => l = k) es, f.children ≠ []) →
    (Element.outermostAll k es).map (·.leftLeaf? [k]) = (Element.leftLeavesAll [k] es).map some
  | [], _ => rfl
  | e :: es, h => by
    have he := outermost_leftLeaves e fun f hf => h f (List.mem_append_left _ hf)
    have hes := outermostAll_leftLeaves es fun f hf => h f (List.mem_append_right _ hf)
    rw [Element.outermostAll, Element.leftLeavesAll, List.map_append, List.map_append, he, hes]

end

theorem elementsAt_ne_nil {c : Tree} (hc : c ∈ cs) (hn : c.kind.isNamed = true) (start : Nat) :
    Tree.elementsAt start cs ≠ [] := by
  induction hc generalizing start with
  | head cs => simp [Tree.elementsAt, hn]
  | tail b _ ih =>
    rw [Tree.elementsAt]
    split
    · exact List.cons_ne_nil _ _
    · exact ih _

/-- Every label filter has a part that is listed. -/
theorem labelFilter_children (query : Text) :
    ∀ f ∈ (rootElement query).walk fun l => l = .labelFilter, f.children ≠ [] := by
  intro f hf
  obtain ⟨before, cs, after, hw, ha⟩ := elements_node rfl (by decide) hf
  obtain ⟨c, hc, hn⟩ := (parse_sturdy hw).labelFilter rfl
  rw [ha.element]
  exact elementsAt_ne_nil hc hn _

/-- Whatever the query: the root holds an expression, an expression and an error node, or an error
node; each node below it has the first parts of its kind; an error node holds tokens as they were
lexed, and nothing else holds a character that is no token. So every matcher has a label name, no
line filter is unknown, and every outermost label filter has one left-most leaf. -/
theorem parse_structure (query : Text) (types : LabelTypes) :
    Tree.word (parse query).children ∈ [[.expr], [.expr, .error], [.error]] ∧
      (∀ before k cs after, Within (parse query).children before (.node k cs) after →
        Sturdy ((Token.lex query).drop before.length) k cs) ∧
      ((∃ t ∈ Token.lex query, t.kind = .unknown) → isValid query = false) ∧
      (∀ selector, ∀ e ∈ elements query (some [.matcher]),
        (Matcher.ofElement? query selector e).isSome) ∧
      (∀ w ∈ drilldownWarnings query types, ∃ text, w = .numericOperator text) ∧
      (outermost query .labelFilter).map (·.leftLeaf? [.labelFilter]) =
        (leftLeaves query [.labelFilter]).map some := by
  refine ⟨parse_word query, fun _ _ _ _ => parse_sturdy, ?_, fun s => matcher_named query s, ?_,
    outermost_leftLeaves _ (labelFilter_children query)⟩
  · rintro ⟨t, ht, hk⟩
    exact unknown_invalid ht hk
  · intro w hw
    rw [drilldownWarnings] at hw
    split at hw
    · cases hw
    · rw [lineFilter_known, List.map_nil, List.nil_append] at hw
      obtain ⟨text, -, rfl⟩ := List.mem_map.mp hw
      exact ⟨text, rfl⟩

end LogQuery
