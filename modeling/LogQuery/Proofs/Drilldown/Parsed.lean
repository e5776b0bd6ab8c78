import LogQuery.Proofs.Acceptance
import LogQuery.Proofs.Drilldown.Tokens

/-! The tree of a written drilldown, with its blanks. -/
namespace LogQuery

open Kind (mark)
open Token (blank lex)
open LogQuery.Tree (Fills Opens airy airyTokens)

namespace LineClause

def tree (c : LineClause) : Tree :=
  .node .lineFilter
    [.node .filter [.ofToken (mark c.op.kind)], Tree.blank, .ofToken c.value.token]

end LineClause

namespace FieldClause

/-- The node around the parts of a test. -/
def testTree (c : FieldClause) : List Tree → Tree :=
  match c.test with
  | .matching _ _ _ => .node .matcher
  | .amount _ unit _ _ => LabelTest.amountTree unit.val

def filterTree (c : FieldClause) : Tree :=
  .node .labelFilter [c.testTree [.ofToken c.name.token, Tree.blank,
    .ofToken (mark c.test.op.kind), Tree.blank, .ofToken c.test.written]]

def tree (c : FieldClause) : Tree :=
  .node .pipelineStage [.ofToken (mark .pipe), Tree.blank, c.filterTree]

theorem testTree_cases (c : FieldClause) :
    c.testTree = .node .matcher ∨ c.testTree = .node .numberFilter ∨
      c.testTree = (fun cs => .node .unitFilter [.node .durationFilter cs]) ∨
      c.testTree = fun cs => .node .unitFilter [.node .bytesFilter cs] := by
  obtain ⟨name, test, _, _⟩ := c
  cases test with
  | matching op v hop => exact .inl rfl
  | amount op unit x hop =>
    obtain ⟨k, hk⟩ := unit
    simp only [Grammar.unitKinds, List.mem_cons, List.not_mem_nil, or_false] at hk
    rcases hk with rfl | rfl | rfl
    · exact .inr (.inl rfl)
    · exact .inr (.inr (.inl rfl))
    · exact .inr (.inr (.inr rfl))

theorem labelTest_tree (c : FieldClause) : c.labelTest.tree =
    c.testTree ([c.name.token, mark c.test.op.kind, c.test.written].map .ofToken) := by
  obtain ⟨name, test, _, _⟩ := c
  cases test <;> rfl

end FieldClause

namespace DrilldownSource

variable (s : DrilldownSource)

def wordTree (w : Keyword) : Tree :=
  .node .pipelineStage [.ofToken (mark .pipe), Tree.blank, .node .labelParser [w.leaf]]

def labelTrees : List LabelClause → List Tree
  | [] => []
  | c :: cs => [.node .matchers (c.matching.tree ::
      cs.flatMap fun d => [.ofToken (mark .comma), Tree.blank, d.matching.tree])]

def selectorTree : Tree :=
  .node .selector (.ofToken (mark .lBrace) :: (labelTrees s.labels ++ [.ofToken (mark .rBrace)]))

def lineStages : List LineClause → List Tree
  | [] => []
  | cs => [.node .pipelineStage [.node .lineFilters (airy (cs.map LineClause.tree)).tail]]

def stageTrees : List Tree :=
  lineStages s.lines ++ (s.parser.words.map wordTree ++ s.fields.map FieldClause.tree)

def pipelineTrees : List Tree → List Tree
  | [] => []
  | ts => [Tree.blank, .node .pipelineExpr (airy ts).tail]

def tree : Tree :=
  .node .logQl [.node .expr [.node .logExpr (s.selectorTree :: pipelineTrees s.stageTrees)]]

theorem printed_significant {ts : List Token} (h : Printed ts) : ∀ t ∈ ts, t.isTrivia = false :=
  fun t ht => Token.whole_significant (h t ht)

theorem matching_opens (m : Matching) : Opens m.tokens := ⟨_, _, rfl, rfl⟩

theorem matching_fills (m : Matching) : Fills [m.tree] m.tokens [m.tree] :=
  Tree.node_fills (Tree.tokens_fills (printed_significant (matching_printed m)))
    (matching_opens m)

theorem labels_fills (cs : List LabelClause) :
    Fills (Sentence.matchersTrees (cs.map LabelClause.matching)) (labelTokens cs)
      (labelTrees cs) := by
  have hmore : ∀ ds : List LabelClause, Fills
      ((ds.map LabelClause.matching).flatMap fun m => [.ofToken (mark .comma), m.tree])
      (ds.flatMap fun d => mark .comma :: blank :: d.matching.tokens)
      (ds.flatMap fun d => [.ofToken (mark .comma), Tree.blank, d.matching.tree]) := by
    intro ds
    induction ds with
    | nil => exact Tree.nil_fills
    | cons d ds ih =>
      have hd := Tree.blank_fills (matching_fills d.matching) (matching_opens d.matching)
      have hc : Fills [.ofToken (mark .comma)] [mark .comma] [.ofToken (mark .comma)] :=
        Tree.leaf_fills rfl
      exact Tree.append_fills (Tree.append_fills hc hd) ih
  cases cs with
  | nil => exact Tree.nil_fills
  | cons c cs =>
    have hc := Tree.append_fills (matching_fills c.matching) (hmore cs)
    exact Tree.node_fills hc ⟨_, _, rfl, rfl⟩

theorem selector_fills : Fills [s.sentence.selectorTree] s.selectorTokens [s.selectorTree] := by
  have hopen : Fills [.ofToken (mark .lBrace)] [mark .lBrace] [.ofToken (mark .lBrace)] :=
    Tree.leaf_fills rfl
  have hclose : Fills [.ofToken (mark .rBrace)] [mark .rBrace] [.ofToken (mark .rBrace)] :=
    Tree.leaf_fills rfl
  exact Tree.node_fills
    (Tree.append_fills hopen (Tree.append_fills (labels_fills s.labels) hclose)) ⟨_, _, rfl, rfl⟩

theorem line_fills (c : LineClause) : Fills [c.test.tree] c.tokens [c.tree] := by
  have hop : (mark c.op.kind).isTrivia = false := by
    cases c.op <;> rfl
  have hopens : Opens [mark c.op.kind] := ⟨_, _, rfl, hop⟩
  have hf : Fills [.node .filter [.ofToken (mark c.op.kind)]] [mark c.op.kind]
      [.node .filter [.ofToken (mark c.op.kind)]] := Tree.node_fills (Tree.leaf_fills hop) hopens
  have hv : Fills [.ofToken c.value.token] [blank, c.value.token]
      [Tree.blank, .ofToken c.value.token] :=
    Tree.blank_fills (Tree.leaf_fills rfl) ⟨_, _, rfl, rfl⟩
  exact Tree.node_fills (Tree.append_fills hf hv) ⟨_, _, rfl, hop⟩

theorem line_opens (c : LineClause) : Opens c.tokens := by
  refine ⟨_, _, rfl, ?_⟩
  cases c.op <;> rfl

theorem testTree_fills (c : FieldClause) {cs fs : List Tree} {ts : List Token}
    (h : Fills cs ts fs) (ho : Opens ts) : Fills [c.testTree cs] ts [c.testTree fs] := by
  rcases c.testTree_cases with hc | hc | hc | hc <;> rw [hc]
  · exact Tree.node_fills h ho
  · exact Tree.node_fills h ho
  · exact Tree.node_fills (Tree.node_fills h ho) ho
  · exact Tree.node_fills (Tree.node_fills h ho) ho

theorem field_opens (c : FieldClause) : Opens c.tokens := ⟨_, _, rfl, rfl⟩

theorem field_fills (c : FieldClause) :
    Fills [Stage.pipedTree (fieldStage c)] c.tokens [c.tree] := by
  have hp := printed_significant (labelTest_printed c.labelTest)
  rw [c.labelTest_tokens] at hp
  have hs := @Tree.spread_fills [mark c.test.op.kind, c.test.written] c.name.token
    rfl fun u hu => hp u (.tail _ hu)
  have ho : Opens (c.name.token :: airyTokens ([mark c.test.op.kind, c.test.written].map
      fun u => [u])) := ⟨_, _, rfl, rfl⟩
  have ht := Tree.node_fills (k := .labelFilter) (testTree_fills c hs ho) ho
  have hpipe : Fills [.ofToken (mark .pipe)] [mark .pipe] [.ofToken (mark .pipe)] :=
    Tree.leaf_fills rfl
  have hstage := Tree.node_fills (k := .pipelineStage)
    (Tree.append_fills hpipe (Tree.blank_fills ht ho)) ⟨_, _, rfl, rfl⟩
  have htree : Stage.pipedTree (fieldStage c) = .node .pipelineStage [.ofToken (mark .pipe),
      .node .labelFilter [c.testTree
        ([c.name.token, mark c.test.op.kind, c.test.written].map .ofToken)]] := by
    rw [← c.labelTest_tree]
    rfl
  rw [htree]
  exact hstage

theorem word_fills (p : ParserChoice) : ∀ w ∈ p.words,
    Fills [Stage.pipedTree (wordStage w)] (wordTokens w) [wordTree w] := by
  have hword : ∀ w : Keyword, Fills
      [.node .pipelineStage [.ofToken (mark .pipe), .node .labelParser [w.leaf]]] (wordTokens w)
      [wordTree w] := by
    intro w
    have hpipe : Fills [.ofToken (mark .pipe)] [mark .pipe] [.ofToken (mark .pipe)] :=
      Tree.leaf_fills rfl
    have ho : Opens [w.token] := ⟨_, _, rfl, rfl⟩
    have hw : Fills [.node .labelParser [w.leaf]] [w.token] [.node .labelParser [w.leaf]] :=
      Tree.node_fills (Tree.leaf_fills rfl) ho
    exact Tree.node_fills (Tree.append_fills hpipe (Tree.blank_fills hw ho)) ⟨_, _, rfl, rfl⟩
  have hspelled : ∀ w ∈ p.words, w = .json ∨ w = .logfmt := by
    cases p <;> decide
  intro w hw
  rcases hspelled w hw with rfl | rfl
  · exact hword .json
  · exact hword .logfmt

theorem leadingLines_piped (ls : List LineTest) (ps : List Piped) :
    Stage.leadingLines (ls.map .line ++ ps.map .piped) = ls := by
  induction ls with
  | nil => cases ps <;> rfl
  | cons l ls ih => exact congrArg (l :: ·) ih

theorem blocks_piped (ls : List LineTest) (ps : List Piped) :
    Stage.blocks (ls.map .line ++ ps.map .piped) = ps.map fun p => (p, []) := by
  induction ls with
  | nil =>
    induction ps with
    | nil => rfl
    | cons p ps ih =>
      have hnone := leadingLines_piped [] ps
      rw [List.map_nil, List.nil_append] at hnone ih ⊢
      rw [List.map_cons, Stage.blocks, ih, hnone, List.map_cons]
  | cons l ls ih => exact ih

/-- Line filters come first, in one stage. -/
theorem lines_piped (ls : List LineTest) (ps : List Piped) :
    Stage.trees (ls.map .line ++ ps.map .piped) =
      Stage.lineTrees ls ++ ps.map Stage.pipedTree := by
  rw [Stage.trees, leadingLines_piped, blocks_piped, List.flatMap_map, List.map_eq_flatMap]
  rfl

theorem lineStages_fills (cs : List LineClause) :
    Fills (Stage.lineTrees (cs.map LineClause.test)) (airyTokens (cs.map LineClause.tokens))
      (airy (lineStages cs)) := by
  have hcs := Tree.airy_fills (fun c (_ : c ∈ cs) => line_fills c) fun c _ => line_opens c
  have ho : ∀ g ∈ cs.map LineClause.tokens, Opens g := by
    intro g hg
    obtain ⟨c, _, rfl⟩ := List.mem_map.mp hg
    exact line_opens c
  cases cs with
  | nil => exact Tree.nil_fills
  | cons c cs =>
    have hlines := Tree.airy_node_fills (k := .lineFilters) hcs ho (by simp) (by simp) (by simp)
    have h := Tree.airy_node_fills (k := .pipelineStage) hlines ho (by simp) (by simp) (by simp)
    simpa [Stage.lineTrees, lineStages, List.map_map, Function.comp_def] using h

theorem stages_eq : s.sentence.stages =
    (s.lines.map LineClause.test).map .line ++ s.piped.map .piped := by
  rw [List.map_map]
  rfl

theorem stages_fills :
    Fills (Stage.trees s.sentence.stages) (airyTokens s.groups) (airy s.stageTrees) := by
  have hwords := Tree.airy_fills (word_fills s.parser) fun w _ => ⟨_, _, rfl, rfl⟩
  have hfields := Tree.airy_fills (fun c (_ : c ∈ s.fields) => field_fills c)
    fun c _ => field_opens c
  have h := Tree.append_fills (lineStages_fills s.lines) (Tree.append_fills hwords hfields)
  rw [stages_eq, lines_piped, piped, List.map_append, List.map_map, List.map_map]
  simpa [groups, stageTrees, Function.comp_def] using h

theorem groups_open : ∀ g ∈ s.groups, Opens g := by
  intro g hg
  simp only [groups, List.mem_append, List.mem_map] at hg
  rcases hg with ⟨c, _, rfl⟩ | ⟨w, _, rfl⟩ | ⟨c, _, rfl⟩
  · exact line_opens c
  · exact ⟨_, _, rfl, rfl⟩
  · exact field_opens c

theorem pipeline_fills :
    Fills (Sentence.pipelineTrees s.sentence.stages) (airyTokens s.groups)
      (pipelineTrees s.stageTrees) := by
  by_cases h : s.sentence.stages = []
  · -- Without stages there is no node for a pipeline, with or without blanks.
    have hparts : s.lines = [] ∧ s.parser.words = [] ∧ s.fields = [] := by
      simpa [stages_eq, piped] using h
    have hgroups : s.groups = [] := by simp [groups, hparts]
    have htrees : s.stageTrees = [] := by simp [stageTrees, lineStages, hparts]
    rw [h, hgroups, htrees]
    exact Tree.nil_fills
  · have hparts : ¬ (s.lines = [] ∧ s.parser.words = [] ∧ s.fields = []) := by
      simpa [stages_eq, piped] using h
    have hlines : lineStages s.lines = [] ↔ s.lines = [] := by
      cases s.lines <;> simp [lineStages]
    have hlineTrees : ∀ ls, Stage.lineTrees ls = [] ↔ ls = [] := by
      intro ls
      cases ls <;> simp [Stage.lineTrees]
    have hbareTrees : Stage.trees s.sentence.stages ≠ [] := by
      rw [stages_eq, lines_piped]
      simpa [hlineTrees, piped] using hparts
    have hf := Tree.airy_node_fills (k := .pipelineExpr) s.stages_fills s.groups_open hbareTrees
      (by simpa [groups] using hparts) (by simpa [stageTrees, hlines] using hparts)
    have hfull : pipelineTrees s.stageTrees =
        [Tree.blank, .node .pipelineExpr (airy s.stageTrees).tail] := by
      cases ht : s.stageTrees with
      | nil => exact absurd ht (by simpa [stageTrees, hlines] using hparts)
      | cons t ts => rfl
    have hbare : Sentence.pipelineTrees s.sentence.stages =
        [.node .pipelineExpr (Stage.trees s.sentence.stages)] := by
      cases hs : s.sentence.stages with
      | nil => exact absurd hs h
      | cons t ts => rfl
    rw [hfull, hbare]
    exact hf

theorem piped_cases {p : Piped} (h : p ∈ s.piped) :
    (p = .json [] ∨ p = .logfmt [] []) ∨ ∃ c : FieldClause, p = fieldStage c := by
  rcases List.mem_append.mp h with h | h
  · obtain ⟨w, _, rfl⟩ := List.mem_map.mp h
    rw [wordStage]
    split
    · exact Or.inl (Or.inl rfl)
    · exact Or.inl (Or.inr rfl)
  · obtain ⟨c, _, rfl⟩ := List.mem_map.mp h
    exact Or.inr ⟨c, rfl⟩

theorem stage_cases {t : Stage} (h : t ∈ s.sentence.stages) :
    (∃ c : LineClause, t = .line c.test) ∨ ∃ p ∈ s.piped, t = .piped p := by
  rcases List.mem_append.mp h with h | h
  · obtain ⟨c, _, rfl⟩ := List.mem_map.mp h
    exact Or.inl ⟨c, rfl⟩
  · obtain ⟨p, hp, rfl⟩ := List.mem_map.mp h
    exact Or.inr ⟨p, hp, rfl⟩

theorem readable : s.sentence.Readable := by
  constructor
  · intro t ht
    obtain ⟨c, rfl⟩ | ⟨p, hp, rfl⟩ := s.stage_cases ht
    · rfl
    · obtain (rfl | rfl) | ⟨c, rfl⟩ := s.piped_cases hp
      · rfl
      · rfl
      · have hn : c.name.token.spells .unwrap = false := by
          exact Bool.and_eq_false_imp.mpr fun _ => decide_eq_false c.no_unwrap
        show Grammar.wordAt 0 .unwrap c.labelTest.tokens = false
        rw [c.labelTest_tokens]
        exact hn
  · -- Only lines open with a comparison, and before a line there are only lines.
    apply List.Pairwise.isChain
    rw [stages_eq, List.pairwise_append]
    simp only [List.pairwise_map]
    refine ⟨List.pairwise_of_forall ?_, List.pairwise_of_forall ?_, ?_⟩
    · rintro a b ⟨ha, -⟩
      cases ha
    · rintro a b ⟨-, hb⟩
      cases hb
    · intro a ha b _ h
      obtain ⟨l, _, rfl⟩ := List.mem_map.mp ha
      cases h.1

theorem levels_le : s.sentence.levels ≤ 2 := by
  have hstage : ∀ t ∈ s.sentence.stages, t.levels ≤ 1 := by
    intro t ht
    obtain ⟨c, rfl⟩ | ⟨p, hp, rfl⟩ := s.stage_cases ht
    · exact Nat.zero_le 1
    · obtain (rfl | rfl) | ⟨c, rfl⟩ := s.piped_cases hp
      · exact Nat.zero_le 1
      · exact Nat.zero_le 1
      · exact Nat.le_refl 1
  have hdeepest : ∀ ts : List Stage, (∀ t ∈ ts, t.levels ≤ 1) → deepest Stage.levels ts ≤ 1 := by
    intro ts hts
    induction ts with
    | nil => exact Nat.zero_le 1
    | cons t ts ih =>
      exact max_le (hts t (.head _)) (ih fun u hu => hts u (.tail _ hu))
  exact Nat.succ_le_succ (hdeepest _ hstage)

theorem parse_text_eq : parse s.text = s.tree := by
  have hlevels : s.sentence.levels ≤ Grammar.maxLevels := s.levels_le.trans (by decide)
  have hq := Grammar.queryTree_sentence s.sentence hlevels s.readable
  have hf : Fills [.node .expr [.node .logExpr
      (s.sentence.selectorTree :: Sentence.pipelineTrees s.sentence.stages)]]
      (s.selectorTokens ++ airyTokens s.groups)
      [.node .expr [.node .logExpr (s.selectorTree :: pipelineTrees s.stageTrees)]] := by
    have ho : Opens (s.selectorTokens ++ airyTokens s.groups) := ⟨_, _, rfl, rfl⟩
    exact Tree.node_fills (Tree.node_fills
      (Tree.append_fills s.selector_fills s.pipeline_fills) ho) ho
  rw [parse, significant_text, hq, lex_text]
  exact Tree.withTrivia_of_fills hf

end DrilldownSource

end LogQuery
