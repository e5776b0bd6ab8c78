import LogQuery.Proofs.Drilldown.Clause

/-! What the tree of a written drilldown holds: its texts, its kinds, and the clauses in it. -/
namespace LogQuery

open Kind (mark)
open LogQuery.Tree (airy kindsAll partsAll textAll)

namespace Tree

variable {cs : List Tree} {k : Kind} {keep : Kind → Bool}

theorem kindsAll_subset {ks : List Kind} (h : ∀ c ∈ cs, c.kinds ⊆ ks) : kindsAll cs ⊆ ks := by
  intro k hk
  obtain ⟨c, hc, hk⟩ := mem_kindsAll.mp hk
  exact h c hc hk

theorem node_subset {ks : List Kind} (hk : k ∈ ks) (h : ∀ c ∈ cs, c.kinds ⊆ ks) :
    (node k cs).kinds ⊆ ks := List.cons_subset.mpr ⟨hk, kindsAll_subset h⟩

theorem mem_airy {c : Tree} (h : c ∈ airy cs) : c = blank ∨ c ∈ cs := by
  obtain ⟨d, hd, hc⟩ := List.mem_flatMap.mp h
  rcases List.mem_pair.mp hc with rfl | rfl
  · exact Or.inl rfl
  · exact Or.inr hd

theorem partsAll_blank (cs : List Tree) : partsAll keep (blank :: cs) = partsAll keep cs := rfl

/-- A node that is not looked for is looked through. -/
theorem partsAll_through (hk : keep k = false) (hn : k.isNamed = true) (cs ds : List Tree) :
    partsAll keep (node k cs :: ds) = partsAll keep cs ++ partsAll keep ds := by
  simp [partsAll, parts, kind, hk, hn]

theorem partsAll_cons (c : Tree) (cs : List Tree) :
    partsAll keep (c :: cs) = partsAll keep [c] ++ partsAll keep cs := partsAll_append [c] cs

theorem partsAll_map {α : Type} {f : α → Tree} {g : α → List Tree}
    (h : ∀ x, partsAll keep [f x] = g x) (xs : List α) :
    partsAll keep (xs.map f) = xs.flatMap g := by
  induction xs with
  | nil => rfl
  | cons x xs ih =>
    rw [List.map_cons, partsAll_cons, h, ih, List.flatMap_cons]

theorem partsAll_airy (cs : List Tree) : partsAll keep (airy cs) = partsAll keep cs := by
  induction cs with
  | nil => rfl
  | cons c cs ih => rw [airy_cons, partsAll_blank, partsAll, partsAll, ih]

theorem partsAll_airy_tail (cs : List Tree) :
    partsAll keep (airy cs).tail = partsAll keep cs := by
  rw [← partsAll_airy cs]
  cases cs with
  | nil => rfl
  | cons c cs => rfl

theorem textAll_airy {α : Type} (f : α → Tree) (xs : List α) :
    textAll (airy (xs.map f)) = xs.flatMap fun x => ' ' :: (f x).text := by
  induction xs with
  | nil => rfl
  | cons x xs ih =>
    rw [List.map_cons, airy_cons, textAll, textAll, ih]
    rfl

theorem mem_kinds_airy (hk : k ≠ .whitespace) : k ∈ kindsAll (airy cs) ↔ k ∈ kindsAll cs := by
  induction cs with
  | nil => rfl
  | cons c cs ih => simp [kindsAll, kinds, blank, ofToken, Token.blank, hk, ih]

end Tree

namespace DrilldownSource

variable (s : DrilldownSource)

/-! The texts of the parts. -/

theorem line_text (c : LineClause) : ' ' :: c.tree.text = c.text := by
  simp [LineClause.tree, Tree.text, textAll, Tree.ofToken, Tree.blank, Token.blank,
    LineClause.text, ← LineOp.mark_text]

theorem field_text (c : FieldClause) : ' ' :: c.tree.text = c.text := by
  simp [FieldClause.tree, Tree.text, textAll, filterTree_text, Tree.ofToken, Tree.blank,
    Token.blank, FieldClause.text, mark, Kind.symbol]

theorem lines_text (cs : List LineClause) :
    textAll (airy (lineStages cs)) = cs.flatMap LineClause.text := by
  have h := Tree.textAll_airy LineClause.tree cs
  simp only [line_text] at h
  cases cs with
  | nil => rfl
  | cons c cs =>
    rw [← h]
    simp [lineStages, textAll, Tree.text, Tree.blank, Tree.ofToken, Token.blank]

theorem words_text (p : ParserChoice) :
    textAll (airy (p.words.map wordTree)) = p.text := by
  cases p <;> rfl

/-- Without stages a query is its selector. -/
def bare : DrilldownSource := ⟨s.labels, [], .none, []⟩

theorem bare_text : s.bare.text = s.selectorText := by
  simp [bare, text, head, selectorText, ParserChoice.text, ParserChoice.words]

theorem selector_text : s.selectorTree.text = s.selectorText := by
  have h := parse_text s.bare.text
  rw [parse_text_eq] at h
  rw [← bare_text, ← h]
  simp [tree, bare, stageTrees, lineStages, ParserChoice.words, pipelineTrees, Tree.text, textAll,
    selectorTree]

/-! The kinds of the parts. -/

def selectorKinds : List Kind :=
  [.selector, .lBrace, .matchers, .matcher, .identifier, .string, .comma, .whitespace, .rBrace] ++
    Grammar.matcherOps

def lineKinds : List Kind :=
  [.pipelineStage, .lineFilters, .whitespace, .lineFilter, .filter, .string] ++ Grammar.lineOps

def fieldKinds : List Kind :=
  [.pipelineStage, .pipe, .whitespace, .labelFilter, .matcher, .numberFilter, .unitFilter,
    .durationFilter, .bytesFilter, .identifier, .string] ++ Grammar.unitKinds ++
    Grammar.matcherOps ++ Grammar.comparisonOps

theorem matching_kinds (c : LabelClause) : c.matching.tree.kinds ⊆ selectorKinds := by
  have hop := c.op.matcher_kind c.matches_value
  have hk : c.matching.tree.kinds = [.matcher, .identifier, c.op.kind, .string] := rfl
  rw [hk]
  intro k hk
  simp only [List.mem_cons, List.not_mem_nil, or_false] at hk
  rcases hk with rfl | rfl | rfl | rfl
  · decide
  · decide
  · exact List.mem_append_right _ hop
  · decide

theorem labelTrees_kinds (cs : List LabelClause) :
    ∀ t ∈ labelTrees cs, t.kinds ⊆ selectorKinds := by
  cases cs with
  | nil => simp [labelTrees]
  | cons c cs =>
    intro t ht
    obtain rfl := List.mem_singleton.mp ht
    refine Tree.node_subset (by decide) fun d hd => ?_
    simp only [List.mem_cons, List.mem_flatMap, List.not_mem_nil, or_false] at hd
    rcases hd with rfl | ⟨b, _, rfl | rfl | rfl⟩
    · exact matching_kinds c
    · exact (by decide : [Kind.comma] ⊆ selectorKinds)
    · exact (by decide : [Kind.whitespace] ⊆ selectorKinds)
    · exact matching_kinds b

theorem selector_kinds : s.selectorTree.kinds ⊆ selectorKinds := by
  refine Tree.node_subset (by decide) fun d hd => ?_
  simp only [List.mem_cons, List.mem_append, List.not_mem_nil, or_false] at hd
  rcases hd with rfl | hd | rfl
  · exact (by decide : [Kind.lBrace] ⊆ selectorKinds)
  · exact labelTrees_kinds s.labels d hd
  · exact (by decide : [Kind.rBrace] ⊆ selectorKinds)

theorem line_kinds (c : LineClause) : c.tree.kinds ⊆ lineKinds := by
  obtain ⟨op, value, _⟩ := c
  have h : ∀ op : LineOp, [.lineFilter, .filter, op.kind, .whitespace, .string] ⊆ lineKinds := by
    intro op
    cases op <;> decide
  exact h op

theorem lineStages_kinds (cs : List LineClause) : kindsAll (lineStages cs) ⊆ lineKinds := by
  cases cs with
  | nil => exact List.nil_subset _
  | cons c cs =>
    refine Tree.kindsAll_subset fun t ht => ?_
    obtain rfl := List.mem_singleton.mp ht
    refine Tree.node_subset (by decide) fun t ht => ?_
    obtain rfl := List.mem_singleton.mp ht
    refine Tree.node_subset (by decide) fun t ht => ?_
    rcases Tree.mem_airy (List.mem_of_mem_tail ht) with rfl | ht
    · exact (by decide : [Kind.whitespace] ⊆ lineKinds)
    · obtain ⟨d, _, rfl⟩ := List.mem_map.mp ht
      exact line_kinds d

theorem field_kinds (c : FieldClause) : c.tree.kinds ⊆ fieldKinds := by
  -- Around the signs of a test, only its node and its value differ.
  have h : ∀ (op : Comparison) (k : Kind) (wrap : List Kind), k ∈ fieldKinds → wrap ⊆ fieldKinds →
      [.pipelineStage, .pipe, .whitespace, .labelFilter] ++ (wrap ++
        [.identifier, .whitespace, op.kind, .whitespace, k]) ⊆ fieldKinds := by
    intro op k wrap hk hwrap
    have hop : op.kind ∈ fieldKinds := by
      cases op <;> decide
    simp only [List.append_subset, List.cons_subset, hk, hwrap, hop, List.nil_subset, and_true,
      true_and]
    decide
  obtain ⟨name, test, _, _⟩ := c
  cases test with
  | matching op v hop => exact h op .string [.matcher] (by decide) (by decide)
  | amount op unit x hop =>
    obtain ⟨k, hk⟩ := unit
    simp only [Grammar.unitKinds, List.mem_cons, List.not_mem_nil, or_false] at hk
    rcases hk with rfl | rfl | rfl
    · exact h op .number [.numberFilter] (by decide) (by decide)
    · exact h op .duration [.unitFilter, .durationFilter] (by decide) (by decide)
    · exact h op .bytes [.unitFilter, .bytesFilter] (by decide) (by decide)

/-! The parts of the tree that are looked for. -/

theorem parts_tree {keep : Kind → Bool} (h : ∀ k ∈ [Kind.logQl, .expr, .logExpr, .pipelineExpr],
    keep k = false) :
    s.tree.parts keep = s.selectorTree.parts keep ++ partsAll keep s.stageTrees := by
  have hp : partsAll keep (pipelineTrees s.stageTrees) = partsAll keep s.stageTrees := by
    cases s.stageTrees with
    | nil => rfl
    | cons t ts =>
      have hpipeline : pipelineTrees (t :: ts) =
          [Tree.blank, .node .pipelineExpr (airy (t :: ts)).tail] := rfl
      rw [hpipeline, Tree.partsAll_blank,
        Tree.partsAll_through (h .pipelineExpr (by decide)) rfl, Tree.partsAll_airy_tail]
      exact List.append_nil _
  have hroot : s.tree.parts keep = partsAll keep [.node .expr [.node .logExpr
      (s.selectorTree :: pipelineTrees s.stageTrees)]] := by
    rw [tree, Tree.parts, h .logQl (by decide)]
    rfl
  have hselector : partsAll keep [s.selectorTree] = s.selectorTree.parts keep :=
    List.append_nil _
  rw [hroot, Tree.partsAll_through (h .expr (by decide)) rfl,
    Tree.partsAll_through (h .logExpr (by decide)) rfl, Tree.partsAll_cons, hselector, hp]
  simp [partsAll]

theorem label_parts (cs : List LabelClause) :
    partsAll [Kind.matcher].contains (labelTrees cs) = cs.map (·.matching.tree) := by
  have hc : ∀ c : LabelClause,
      partsAll [Kind.matcher].contains [c.matching.tree] = [c.matching.tree] := by
    rintro ⟨name, op, value, hop, _⟩
    cases op with
    | equal | notEqual | regexEqual | regexNotEqual => rfl
    | greater | less | greaterEqual | lessEqual => cases hop
  have hmore : ∀ ds : List LabelClause, partsAll [Kind.matcher].contains
      (ds.flatMap fun d => [.ofToken (mark .comma), Tree.blank, d.matching.tree]) =
        ds.map (·.matching.tree) := by
    intro ds
    induction ds with
    | nil => rfl
    | cons d ds ih =>
      rw [List.flatMap_cons, Tree.partsAll_append, ih, List.map_cons]
      exact congrArg (· ++ _) (hc d)
  cases cs with
  | nil => rfl
  | cons c cs =>
    rw [labelTrees, Tree.partsAll_through rfl rfl, Tree.partsAll_cons c.matching.tree, hc, hmore]
    exact List.append_nil _

theorem line_parts : s.tree.parts [Kind.lineFilter].contains = s.lines.map LineClause.tree := by
  have hselector : s.selectorTree.parts [Kind.lineFilter].contains = [] :=
    Tree.parts_none _ fun k hk =>
      (by decide : ∀ k ∈ selectorKinds, [Kind.lineFilter].contains k = false) k
        (s.selector_kinds hk)
  have hline : ∀ c : LineClause, partsAll [Kind.lineFilter].contains [c.tree] = [c.tree] := by
    rintro ⟨op, value, _⟩
    cases op <;> rfl
  have hlines : partsAll [Kind.lineFilter].contains (lineStages s.lines) =
      s.lines.map LineClause.tree := by
    cases s.lines with
    | nil => rfl
    | cons c cs =>
      have hstage : lineStages (c :: cs) = [.node .pipelineStage
          [.node .lineFilters (airy ((c :: cs).map LineClause.tree)).tail]] := rfl
      rw [hstage, Tree.partsAll_through rfl rfl, Tree.partsAll_through rfl rfl,
        Tree.partsAll_airy_tail, Tree.partsAll_map hline, ← List.map_eq_flatMap]
      simp [partsAll]
  have hwords : partsAll [Kind.lineFilter].contains (s.parser.words.map wordTree) = [] := by
    cases s.parser <;> rfl
  have hfields : partsAll [Kind.lineFilter].contains (s.fields.map FieldClause.tree) = [] := by
    refine Tree.partsAll_none _ fun k hk => ?_
    have hf : kindsAll (s.fields.map FieldClause.tree) ⊆ fieldKinds :=
      Tree.kindsAll_subset fun t ht => by
        obtain ⟨c, _, rfl⟩ := List.mem_map.mp ht
        exact field_kinds c
    exact (by decide : ∀ k ∈ fieldKinds, [Kind.lineFilter].contains k = false) k (hf hk)
  rw [s.parts_tree (by decide), hselector, stageTrees, Tree.partsAll_append, Tree.partsAll_append,
    hlines, hwords, hfields]
  simp

end DrilldownSource

end LogQuery
