import LogQuery.Proofs.Fields.Reading
import LogQuery.Proofs.Sentence.Printed
import LogQuery.Proofs.Sentence.Selector

/-! Label filters behind as many parentheses as rules may nest. What stands in these is refused, and
still it is looked at. -/
namespace LogQuery

open Kind (mark)
open LogQuery.Tree (leavesAll listed)

variable {us : List Token} {t : Tree}

/-- Parentheses that are not closed, around the error node of what was refused. -/
inductive Nested (us : List Token) : Tree → Prop
  | last (more : List Tree) (h : leavesAll more = []) : Nested us
    (.node .labelFilter (.ofToken (mark .lParen) :: .node .error (us.map .ofToken) :: more))
  | inner (t : Tree) (more : List Tree) (h : Nested us t) :
    Nested us (.node .labelFilter (.ofToken (mark .lParen) :: t :: more))

namespace Grammar

variable {ts : List Token} {c : Tree} {cs : List Tree} {inner first r : Rule} {k : Kind}
  {join : List Token → Option Join} {wrap : List Tree → Tree} {operand : Nat → Rule}
  {least levels : Nat}

/-- All tokens there were are taken. -/
structure Found.Ends (f : Found) (cs : List Tree) : Prop where
  trees : f.trees = cs
  rest : f.rest = []

theorem refuse_ends (h : us ≠ []) : (refuse us).Ends [.node .error (us.map .ofToken)] := by
  cases us with
  | nil => exact (h rfl).elim
  | cons u us =>
    have hall : us.takeWhile (fun _ => true) = us := List.takeWhile_eq_self_iff.mpr fun _ _ => rfl
    constructor <;> simp [refuse, skipUntil, hall]

theorem node_ends (h : (r ts).Ends cs) : (node k r ts).Ends [.node k cs] := by
  constructor <;> simp [node, nodeBy, h.trees, h.rest]

/-- Nothing is joined to what takes all tokens. -/
theorem chain_ends (h : (first ts).Ends [c]) :
    (deepen (chain first join wrap operand least) ts).Ends [c] := by
  constructor <;> simp [deepen, chain, h.trees, h.rest, climb, Found.absorbed]

/-- A parenthesis that is never closed. -/
theorem labelOperand_ends (h : (inner ts).Ends [c]) : ∃ more, leavesAll more = [] ∧
    (labelOperand inner (mark .lParen :: ts)).Ends
      [.node .labelFilter (.ofToken (mark .lParen) :: c :: more)] := by
  have hopen : labelOperand inner (mark .lParen :: ts) =
      node .labelFilter (seq [bump, orMissing .labelFilter inner, expect .rParen])
        (mark .lParen :: ts) := rfl
  have hinner : ∃ more, leavesAll more = [] ∧
      (orMissing .labelFilter inner ts).Ends (c :: more) := by
    rw [orMissing, Found.orMissing]
    split
    · exact ⟨[], rfl, h⟩
    · refine ⟨[.node .error []], rfl, ?_⟩
      constructor <;> simp [Found.followed, missing, node, nodeBy, nothing, h.trees, h.rest]
  obtain ⟨more, hmore, hf⟩ := hinner
  refine ⟨more ++ [.node .error []], by rw [Tree.leavesAll_append, hmore]; rfl, ?_⟩
  rw [hopen]
  refine node_ends ?_
  constructor <;> simp [seq, andThen, Found.followed, bump, nothing, hf.trees, hf.rest, expect,
    either, atKind, missing, node, nodeBy]

/-- The innermost of the parentheses is refused, with all that is left. -/
theorem labelFilter_nested (hu : us ≠ []) (levels least : Nat) : ∃ t, Nested us t ∧
    (labelFilter (levels + 1) least
      (List.replicate (levels + 1) (mark .lParen) ++ us)).Ends [t] := by
  induction levels generalizing least with
  | zero =>
    obtain ⟨more, hmore, h⟩ := labelOperand_ends (refuse_ends hu)
    exact ⟨_, .last more hmore, chain_ends h⟩
  | succ levels ih =>
    obtain ⟨t, ht, hinner⟩ := ih 0
    obtain ⟨more, -, h⟩ := labelOperand_ends hinner
    exact ⟨_, .inner t more ht, chain_ends h⟩

theorem many_ends {p : Look} {t : Token} (hp : p (t :: ts) = true) (he : p [] = false)
    (h : (r (t :: ts)).Ends cs) : (many p r (t :: ts)).Ends cs := by
  constructor <;>
    simp [many, many.go, when, hp, andThen, Found.followed, h.trees, h.rest, many_go_of_not he,
      nothing]

/-- A query with a label filter behind as many parentheses as rules may nest. -/
theorem contents_nested (s : Sentence) (hu : us ≠ []) (levels : Nat) : ∃ t, Nested us t ∧
    (contents (levels + 2) (s.selectorTokens ++
      mark .pipe :: (List.replicate (levels + 1) (mark .lParen) ++ us))).trees =
        [.node .expr [.node .logExpr [s.selectorTree, .node .pipelineExpr
          [.node .pipelineStage [.ofToken (mark .pipe), t]]]]] := by
  obtain ⟨t, ht, hfilter⟩ := labelFilter_nested hu levels 0
  refine ⟨t, ht, ?_⟩
  set ts := List.replicate (levels + 1) (mark .lParen) ++ us with hts
  have hstage : (stage (levels + 1) (mark .pipe :: ts)).Ends
      [.node .pipelineStage [.ofToken (mark .pipe), t]] := by
    have hopen : stage (levels + 1) (mark .pipe :: ts) = node .pipelineStage
        (seq [bump, labelFilter (levels + 1) 0]) (mark .pipe :: ts) := rfl
    rw [hopen]
    refine node_ends ?_
    constructor <;> simp [seq, andThen, Found.followed, bump, nothing, hfilter.trees, hfilter.rest]
  have hat : atStage (mark .pipe :: ts) = true := rfl
  have hpipeline : (pipeline (levels + 1) (mark .pipe :: ts)).Ends
      [.node .pipelineExpr [.node .pipelineStage [.ofToken (mark .pipe), t]]] :=
    node_ends (many_ends hat rfl hstage)
  have hlog : (logExpr (levels + 1) (s.selectorTokens ++ mark .pipe :: ts)).Ends
      [.node .logExpr [s.selectorTree, .node .pipelineExpr
          [.node .pipelineStage [.ofToken (mark .pipe), t]]]] := by
    refine node_ends ?_
    constructor <;> simp [seq, andThen, Found.followed, nothing, selector_takes, when, hat,
      hpipeline.trees, hpipeline.rest]
  have hoperand : (operand (levels + 1) (expr (levels + 1) 0)
      (s.selectorTokens ++ mark .pipe :: ts)).Ends _ := node_ends (k := .expr) hlog
  have hexpr : (expr (levels + 2) 0 (s.selectorTokens ++ mark .pipe :: ts)).Ends _ :=
    chain_ends hoperand
  simp [contents, andThen, Found.followed, Found.orMissing, Found.makes, hexpr.trees, hexpr.rest,
    skipUntil, nothing, Tree.kind]

end Grammar

section Deep

variable {query : Text} {e : Element} {s : Sentence}

theorem nested_kind (h : Nested us t) : t.kind = .labelFilter := by
  cases h <;> rfl

/-- Outside of the error node there is no comparison. -/
theorem nested_leftmost (h : Nested us t) : t.prune.leftmost? = none := by
  induction h with
  | last more _ => rfl
  | inner t more h ih =>
    cases t with
    | leaf k x => cases h
    | node k cs => exact ih

/-- The leaf that is reached holds all tokens of the error node. -/
theorem nested_leaf (h : Nested us t) (he : Seen query e t) : ∃ f u,
    e.leftLeaf? [.labelFilter] = some f ∧ Seen query f u ∧ u.kind = .labelFilter ∧
      u.leaves = mark .lParen :: us := by
  induction h generalizing e with
  | last more hmore =>
    have hcs := seen_children he
    cases e with
    | mk k s ds =>
      have hlisted : listed (Tree.node .labelFilter
          (.ofToken (mark .lParen) :: .node .error (us.map .ofToken) :: more)).children =
            .node .error (us.map .ofToken) :: listed more := rfl
      rw [hlisted] at hcs
      cases hcs with
      | @cons d _ ds _ hd _ =>
        refine ⟨_, _, ?_, he, rfl, ?_⟩
        · rw [Element.leftLeaf?, seen_kind hd]
          rfl
        · simp [Tree.leaves, leavesAll, hmore, Tree.leavesAll_ofToken, Tree.ofToken]
  | inner t more h ih =>
    have hcs := seen_children he
    cases e with
    | mk k s ds =>
      have hlisted : listed (Tree.node .labelFilter
          (.ofToken (mark .lParen) :: t :: more)).children = t :: listed more :=
        (Tree.listed_unnamed rfl).trans (Tree.listed_named (nested_kind h ▸ rfl))
      rw [hlisted] at hcs
      cases hcs with
      | @cons d _ ds _ hd _ =>
        obtain ⟨f, u, hf, hrest⟩ := ih hd
        refine ⟨f, u, ?_, hrest⟩
        rw [Element.leftLeaf?, seen_kind hd, nested_kind h]
        exact hf

end Deep

section Text

variable {query : Text} {f : Element} {u : Tree}

/-- A label that is given a value. -/
def plainSelector : Sentence :=
  ⟨[⟨⟨"a".toList, rfl⟩, ⟨.eq, .head _⟩, ⟨"\"b\"".toList, rfl⟩⟩], false, []⟩

/-- A selector, and a label filter with one pair of parentheses too many around the tokens. -/
def nestedText (us : List Token) : Text :=
  Token.spaced (plainSelector.selectorTokens ++
    mark .pipe :: (List.replicate 255 (mark .lParen) ++ us))

theorem nested_stripped (hu : us ≠ []) (hp : Printed us) : ∃ t, Nested us t ∧
    stripped (nestedText us) = [.node .expr [.node .logExpr [plainSelector.selectorTree,
      .node .pipelineExpr [.node .pipelineStage [.ofToken (mark .pipe), t]]]]] := by
  have hprinted : Printed (plainSelector.selectorTokens ++
      mark .pipe :: (List.replicate 255 (mark .lParen) ++ us)) := by
    have hopen : Printed (List.replicate 255 (mark .lParen)) := fun t ht => by
      rw [List.eq_of_mem_replicate ht]
      exact mark_whole (by decide)
    have hpipe : (mark .pipe).Whole := mark_whole (by decide)
    rw [printed_append, printed_cons, printed_append]
    exact ⟨(printed_append.mp (sentence_printed plainSelector)).1, hpipe, hopen, hp⟩
  obtain ⟨t, ht, htrees⟩ := Grammar.contents_nested plainSelector hu 254
  refine ⟨t, ht, ?_⟩
  rw [stripped, significant, nestedText, Token.significant_spaced hprinted]
  exact htrees

/-- In all of these parentheses there is one label filter. -/
theorem nested_labelFilters (hu : us ≠ []) (hp : Printed us) :
    ∃ t, Nested us t ∧ labelFilters (nestedText us) = [t] := by
  obtain ⟨t, ht, hs⟩ := nested_stripped hu hp
  refine ⟨t, ht, ?_⟩
  have hself : (if t.kind.isNamed then t.outermost .labelFilter else []) = [t] := by
    cases ht <;> rfl
  have hselector : plainSelector.selectorTree.outermost .labelFilter = [] := by decide
  have hnode : ∀ k cs, k.isNamed = true → k ≠ .labelFilter →
      Tree.outermostAll .labelFilter [.node k cs] = Tree.outermostAll .labelFilter cs := by
    intro k cs hn hk
    have hnamed : (Tree.node k cs).kind.isNamed = true := hn
    rw [Tree.outermostAll, if_pos hnamed, Tree.outermost, if_neg hk, Tree.outermostAll,
      List.append_nil]
  rw [labelFilters_eq, hs, hnode _ _ rfl (by decide), hnode _ _ rfl (by decide),
    Tree.outermostAll, hselector, hnode _ _ rfl (by decide), hnode _ _ rfl (by decide)]
  simp [Tree.outermostAll, hself, Tree.ofToken, mark, Tree.outermost]

theorem nested_selector (hu : us ≠ []) (hp : Printed us) :
    (firstSelector? (nestedText us)).isSome = true := by
  obtain ⟨t, ht, hs⟩ := nested_stripped hu hp
  have hseen := elements_seen (k := .selector) (nestedText us) (by decide)
  have hparts : ∃ ds, Tree.partsAll (fun l => l = .selector) (stripped (nestedText us)) =
      plainSelector.selectorTree :: ds := by
    rw [hs]
    exact ⟨_, rfl⟩
  obtain ⟨ds, hds⟩ := hparts
  rw [hds] at hseen
  rw [firstSelector?]
  generalize elements (nestedText us) (some [.selector]) = es at hseen
  cases hseen
  rfl

/-- What is seen of some tokens is taken for a comparison if there are a name, a sign and a string
among them, whatever stands between these. -/
theorem loose_field (types : LabelTypes) (h : Seen query f u)
    (hname : ∃ l ∈ u.leaves, l.kind = .identifier)
    (hsign : ∃ l ∈ u.leaves, l.kind ∈ Grammar.matcherOps)
    (hstring : ∃ l ∈ u.leaves, l.kind = .string) :
    ∃ x, FieldEntry.ofFilter? query types f = some (.field x) := by
  have hfirst : ∀ k : Kind, k.isNamed = true → k.isNode = false → (∃ l ∈ u.leaves, l.kind = k) →
      ∃ e, f.first? k = some e := by
    rintro k hk hn ⟨l, hl, rfl⟩
    rw [← Option.isSome_iff_exists, first_token_isSome h hk hn, List.find?_isSome]
    exact ⟨l, hl, by simp⟩
  obtain ⟨name, hname⟩ := hfirst _ rfl rfl hname
  obtain ⟨string, hstring⟩ := hfirst _ rfl rfl hstring
  obtain ⟨l, hl, hk⟩ := hsign
  have hkinds : ∀ p ∈ FieldEntry.stringOperators, p.1.isNamed = true ∧ p.1.isNode = false := by
    simp only [FieldEntry.stringOperators, List.mem_cons, List.not_mem_nil, or_false]
    rintro p (rfl | rfl | rfl | rfl) <;> exact ⟨rfl, rfl⟩
  have hop : (FieldEntry.operator? FieldEntry.stringOperators f).isSome = true := by
    obtain ⟨op, hop, -⟩ := FieldEntry.stringOperators_sign _ hk
    rw [FieldEntry.operator?, find_seen _ h hkinds, Option.isSome_map, List.find?_isSome]
    exact ⟨_, List.mem_of_find?_eq_some hop, List.any_eq_true.mpr ⟨l, hl, by simp⟩⟩
  obtain ⟨op, hop⟩ := Option.isSome_iff_exists.mp hop
  rw [FieldEntry.ofFilter?, hname, hstring]
  simp [hop, FieldEntry.make]

/-- Of what was refused the first name, sign and string are taken for a filter on a field. -/
theorem nested_fields (hp : Printed us) (hname : ∃ l ∈ us, l.kind = .identifier)
    (hsign : ∃ l ∈ us, l.kind ∈ Grammar.matcherOps) (hstring : ∃ l ∈ us, l.kind = .string)
    (types : LabelTypes) : ∃ x, (drilldown (nestedText us) types).fields = [x] := by
  have hu : us ≠ [] := by
    rintro rfl
    simp at hname
  obtain ⟨t, ht, hfilters⟩ := nested_labelFilters hu hp
  obtain ⟨selector, hselector⟩ := Option.isSome_iff_exists.mp (nested_selector hu hp)
  have hseen := labelFilters_seen (nestedText us)
  have hleaves := outermost_leftLeaves _ (labelFilter_children (nestedText us))
  rw [hfilters] at hseen
  change (outermost (nestedText us) .labelFilter).map _ =
    (leftLeaves (nestedText us) [.labelFilter]).map some at hleaves
  generalize outermost (nestedText us) .labelFilter = es at hseen hleaves
  cases hseen with
  | cons he hnil =>
    cases hnil
    obtain ⟨f, u, hf, hu, hk, hl⟩ := nested_leaf ht he
    have hin : ∀ {p : Token → Prop}, (∃ l ∈ us, p l) → ∃ l ∈ u.leaves, p l := by
      rintro p ⟨l, hl', h⟩
      exact ⟨l, hl ▸ .tail _ hl', h⟩
    obtain ⟨x, hx⟩ := loose_field types hu (hin hname) (hin hsign) (hin hstring)
    have hcheck : FieldEntry.isErrorCheck (nestedText us) f = false := by
      obtain ⟨ahead, hs⟩ := hu
      rw [sight_check hs (sight_kind hs ▸ hk), hl]
      rfl
    have hone : leftLeaves (nestedText us) [.labelFilter] = [f] := by
      rw [List.map_singleton, hf] at hleaves
      exact List.map_injective_iff.mpr (Option.some_injective _) hleaves.symm
    refine ⟨x, ?_⟩
    simp [drilldown, hselector, FieldEntry.ofQuery, hone, hcheck, hx, FieldEntry.field?]

end Text

end LogQuery
