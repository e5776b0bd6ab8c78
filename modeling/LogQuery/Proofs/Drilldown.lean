import LogQuery.Proofs.Drilldown.Shape

/-! A written drilldown is read back: the filters of the query are those of its clauses. -/
namespace LogQuery

open Kind (mark)
open Element (At Located at_of_eq at_text leftLeavesAll)
open LogQuery.Tree (airy kindsAll partsAll elementsAt)

namespace DrilldownSource

variable (s : DrilldownSource)

/-- What is found in a query stands in its tree. -/
theorem elements_located (kinds : List Kind) :
    List.Forall₂ (Located s.text) (elements s.text (some kinds)) (s.tree.parts kinds.contains) := by
  have hq : s.text = [] ++ s.tree.text ++ [] := by
    rw [← parse_text_eq, parse_text]
    simp
  rw [elements, rootElement, parse_text_eq]
  exact Element.walk_located s.tree hq

theorem firstSelector_located :
    ∃ e, firstSelector? s.text = some e ∧ Located s.text e s.selectorTree := by
  have hw := s.elements_located [.selector]
  rw [s.parts_tree (by decide)] at hw
  have hs : s.selectorTree.parts [Kind.selector].contains =
      s.selectorTree :: partsAll [Kind.selector].contains s.selectorTree.children := rfl
  rw [hs, List.cons_append] at hw
  rw [firstSelector?]
  generalize elements s.text (some [.selector]) = es at hw
  cases hw with
  | cons he _ => exact ⟨_, rfl, he⟩

/-- The labels of a selector, from its text alone. -/
theorem labels_given :
    LabelFilter.ofSelector s.selectorText = s.labels.map LabelClause.filter := by
  have hw := s.bare.elements_located [.matcher]
  have hparts : s.bare.tree.parts [Kind.matcher].contains = s.labels.map (·.matching.tree) := by
    have hselector : s.bare.selectorTree.parts [Kind.matcher].contains =
        partsAll [Kind.matcher].contains (labelTrees s.labels ++ [.ofToken (mark .rBrace)]) := rfl
    rw [s.bare.parts_tree (by decide), hselector, Tree.partsAll_append, label_parts]
    simp [bare, stageTrees, lineStages, ParserChoice.words, partsAll, Tree.ofToken, mark,
      Tree.kind, Kind.isNamed, Kind.isTrivia, Kind.isPunctuation]
  rw [hparts, bare_text] at hw
  exact Element.filterMap_located hw fun c _ e h => label_given c h

/-- The entries of lines from a number on, wherever they stand. -/
theorem entries_given {cs : List LineClause} {es : List Element} {query : Text} (number : Nat)
    (h : List.Forall₂ (Located query) es (cs.map LineClause.tree)) :
    ((es.zipIdx number).flatMap fun (e, i) => LineEntry.ofFilter query e i) =
      (cs.zipIdx number).map fun (c, i) =>
        .line (LineEntry.lineFilter c.value.text ['\x60'] i c.op) := by
  induction cs generalizing es number with
  | nil =>
    cases h
    rfl
  | cons c cs ih =>
    cases h with
    | cons he h =>
      obtain ⟨before, he⟩ := he
      rw [List.zipIdx_cons, List.zipIdx_cons, List.flatMap_cons, List.map_cons, ih _ h]
      exact congrArg (· ++ _) (line_given c number he)

theorem lines_given : LineEntry.ofQuery s.text =
    s.lines.zipIdx.map fun (c, i) =>
      .line (LineEntry.lineFilter c.value.text ['\x60'] i c.op) := by
  have hw := s.elements_located [.lineFilter]
  rw [line_parts] at hw
  exact entries_given 0 hw

/-! Fields. -/

/-- How a query goes on after some of its fields. -/
def upTo (done : List FieldClause) : DrilldownSource := ⟨s.labels, s.lines, s.parser, done⟩

theorem mem_pipeline {k : Kind} (hw : k ≠ .whitespace) (hp : k ≠ .pipelineExpr) (ts : List Tree) :
    k ∈ kindsAll (pipelineTrees ts) ↔ k ∈ kindsAll ts := by
  cases ts with
  | nil => rfl
  | cons t ts =>
    have ht : pipelineTrees (t :: ts) = [Tree.blank, .node .pipelineExpr (t :: airy ts)] := rfl
    rw [ht]
    simp [kindsAll, Tree.kinds, Tree.blank, Tree.ofToken, Token.blank, hw, hp,
      Tree.mem_kinds_airy hw]

theorem holds_word (w : Keyword) :
    (parse s.text).holds (.keyword w) = s.parser.words.contains w := by
  have hselector : .keyword w ∉ s.selectorTree.kinds := by
    intro h
    have := s.selector_kinds h
    simp [selectorKinds, Grammar.matcherOps] at this
  have hlines : .keyword w ∉ kindsAll (lineStages s.lines) := by
    intro h
    have := lineStages_kinds s.lines h
    simp [lineKinds, Grammar.lineOps] at this
  have hfields : .keyword w ∉ kindsAll (s.fields.map FieldClause.tree) := by
    intro h
    obtain ⟨t, ht, hk⟩ := Tree.mem_kindsAll.mp h
    obtain ⟨c, _, rfl⟩ := List.mem_map.mp ht
    have := field_kinds c hk
    simp [fieldKinds, Grammar.unitKinds, Grammar.matcherOps, Grammar.comparisonOps] at this
  have hwords : .keyword w ∈ kindsAll (s.parser.words.map wordTree) ↔ w ∈ s.parser.words := by
    cases s.parser <;> simp [ParserChoice.words, kindsAll, Tree.kinds, wordTree, Tree.ofToken, mark,
      Tree.blank, Token.blank, Keyword.leaf]
  rw [parse_text_eq, Bool.eq_iff_iff, Tree.holds, List.contains_iff_mem, List.contains_iff_mem]
  simp [tree, Tree.kinds, kindsAll, hselector, mem_pipeline, stageTrees, Grammar.kindsAll_append,
    hlines, hfields, hwords]

/-- The parsers are all in front of the fields. -/
theorem parser_given (done : List FieldClause) (c : FieldClause) {e : Element}
    (h : At s.text (s.head ++ done.flatMap FieldClause.text ++ " | ".toList) c.filterTree e) :
    FieldEntry.parserBefore? s.text e.span.stop = s.parser.parser? := by
  have hbefore : s.head ++ done.flatMap FieldClause.text ++ " | ".toList ++ c.filterTree.text =
      (s.upTo (done ++ [c])).text := by
    rw [filterTree_text]
    simp [text, upTo, head, selectorText, FieldClause.text]
  have hparser : (s.upTo (done ++ [c])).parser = s.parser := rfl
  rw [FieldEntry.parserBefore?, Element.at_before h, hbefore]
  simp only [Option.getD_some, hasElement, holds_word, hparser]
  cases s.parser <;> rfl

/-- The label filter of a field is its own left-most leaf. -/
theorem field_leaf (c : FieldClause) (start : Nat) :
    (c.tree.elementAt start).leftLeaves [.labelFilter] =
      [c.filterTree.elementAt (start + Text.bytes "| ".toList)] := by
  rw [FieldClause.tree, FieldClause.filterTree]
  rcases c.testTree_cases with hc | hc | hc | hc <;> rw [hc] <;> rfl

theorem fields_found (types : LabelTypes) (done rest : List FieldClause)
    (hs : s.fields = done ++ rest) :
    ((leftLeavesAll [.labelFilter] (elementsAt (s.head ++ done.flatMap FieldClause.text).bytes
        (airy (rest.map FieldClause.tree)))).filter
          fun e => !FieldEntry.isErrorCheck s.text e).filterMap
        (FieldEntry.ofFilter? s.text types) =
      rest.map fun c => .field (c.filter types s.parser.parser?) := by
  induction rest generalizing done with
  | nil => rfl
  | cons c rest ih =>
    -- What stands before the next field is what stood before this one, a blank and this one.
    have hnext := ih (done ++ [c]) (by simp [hs])
    have hstart : (s.head ++ (done ++ [c]).flatMap FieldClause.text).bytes =
        (s.head ++ done.flatMap FieldClause.text).bytes + Tree.blank.bytes + c.tree.bytes := by
      rw [← Tree.bytes_text, ← Tree.bytes_text, ← Text.bytes_append, ← Text.bytes_append]
      simp [← field_text c, Tree.blank, Tree.ofToken, Token.blank, Tree.text]
    have hbar : (s.head ++ done.flatMap FieldClause.text ++ " | ".toList).bytes =
        (s.head ++ done.flatMap FieldClause.text).bytes + Tree.blank.bytes +
          Text.bytes "| ".toList := by
      rw [← Tree.bytes_text, ← Text.bytes_append, ← Text.bytes_append]
      simp [Tree.blank, Tree.ofToken, Token.blank, Tree.text]
    have hq : s.text = (s.head ++ done.flatMap FieldClause.text ++ " | ".toList) ++
        c.filterTree.text ++ rest.flatMap FieldClause.text := by
      simp [text, hs, filterTree_text, FieldClause.text]
    have ha := at_of_eq hq
    rw [hbar] at ha
    rw [hstart] at hnext
    have hgiven := field_given c types ha (s.parser_given done c ha)
    have hkept := List.filter_cons_of_pos (p := fun e => !FieldEntry.isErrorCheck s.text e)
      (l := []) (congrArg Bool.not (field_checked c ha))
    have helements : elementsAt (s.head ++ done.flatMap FieldClause.text).bytes
        (airy ((c :: rest).map FieldClause.tree)) =
          c.tree.elementAt ((s.head ++ done.flatMap FieldClause.text).bytes + Tree.blank.bytes) ::
            elementsAt ((s.head ++ done.flatMap FieldClause.text).bytes + Tree.blank.bytes +
              c.tree.bytes) (airy (rest.map FieldClause.tree)) := rfl
    rw [helements, leftLeavesAll, field_leaf, List.filter_append, List.filterMap_append, hnext,
      hkept, List.filter_nil, List.filterMap_cons_some hgiven]
    rfl

theorem leftLeaves_pipeline (start : Nat) (ts : List Tree) :
    leftLeavesAll [.labelFilter] (elementsAt start (pipelineTrees ts)) =
      leftLeavesAll [.labelFilter] (elementsAt start (airy ts)) := by
  cases ts with
  | nil => rfl
  | cons t ts => exact List.append_nil _

/-- Only the fields of a query have label filters. -/
theorem leftLeaves_fields : leftLeaves s.text [.labelFilter] =
    leftLeavesAll [.labelFilter]
      (elementsAt s.head.bytes (airy (s.fields.map FieldClause.tree))) := by
  have hselector := @Element.leftLeaves_none [.labelFilter] s.selectorTree 0 fun k hk =>
    (by decide : ∀ k ∈ selectorKinds, k ∉ [Kind.labelFilter]) k (s.selector_kinds hk)
  have hlines : ∀ start, leftLeavesAll [.labelFilter]
      (elementsAt start (airy (lineStages s.lines))) = [] := fun start =>
    Element.leftLeavesAll_none _ start fun k hk he => by
      obtain rfl := List.mem_singleton.mp he
      rw [Tree.mem_kinds_airy (by decide)] at hk
      exact absurd (lineStages_kinds s.lines hk) (by decide)
  have hwords : ∀ start, leftLeavesAll [.labelFilter]
      (elementsAt start (airy (s.parser.words.map wordTree))) = [] := by
    intro start
    cases s.parser <;> rfl
  have hhead : 0 + s.selectorTree.bytes + Tree.bytesAll (airy (lineStages s.lines)) +
      Tree.bytesAll (airy (s.parser.words.map wordTree)) = s.head.bytes := by
    rw [← Tree.bytes_text, ← Tree.bytes_textAll, ← Tree.bytes_textAll, selector_text, lines_text,
      words_text, head, Text.bytes_append, Text.bytes_append, Nat.zero_add]
  have hroot : leftLeaves s.text [.labelFilter] = leftLeavesAll [.labelFilter]
      (elementsAt 0 (s.selectorTree :: pipelineTrees s.stageTrees)) := by
    rw [leftLeaves, rootElement, parse_text_eq]
    exact (List.append_nil _).trans (List.append_nil _)
  have hcons : elementsAt 0 (s.selectorTree :: pipelineTrees s.stageTrees) =
      s.selectorTree.elementAt 0 ::
        elementsAt (0 + s.selectorTree.bytes) (pipelineTrees s.stageTrees) := rfl
  rw [hroot, hcons, leftLeavesAll, hselector, List.nil_append, leftLeaves_pipeline, stageTrees,
    Tree.airy_append, Tree.airy_append, Tree.elementsAt_append, Tree.elementsAt_append,
    Element.leftLeavesAll_append, Element.leftLeavesAll_append, hlines, hwords, hhead]
  rfl

theorem fields_given (types : LabelTypes) : FieldEntry.ofQuery s.text types =
    s.fields.map fun c => .field (c.filter types s.parser.parser?) := by
  have h := s.fields_found types [] s.fields rfl
  rw [List.flatMap_nil, List.append_nil] at h
  rw [FieldEntry.ofQuery, leftLeaves_fields, h]

end DrilldownSource

/-- The filters of a written drilldown are those of its clauses, in their order. -/
theorem drilldown_source (s : DrilldownSource) (types : LabelTypes) :
    ∃ lines, drilldown s.text types =
        { labels := s.labels.map LabelClause.filter
          lines := lines
          fields := s.fields.map fun c => c.filter types s.parser.parser?
          patterns := [] } ∧
      List.Forall₂ (fun (c, i) f => c.Gives i f) s.lines.zipIdx lines := by
  obtain ⟨selector, hfirst, _, hselector⟩ := s.firstSelector_located
  have htext : selector.span.text s.text = s.selectorText :=
    (at_text hselector).trans s.selector_text
  refine ⟨s.lines.zipIdx.map fun (c, i) =>
    LineEntry.lineFilter c.value.text ['\x60'] i c.op, ?_, ?_⟩
  · rw [drilldown, hfirst]
    simp only [htext, s.labels_given, s.lines_given, s.fields_given]
    simp [List.filterMap_map, Function.comp_def, LineEntry.line?, LineEntry.pattern?,
      FieldEntry.field?, List.filterMap_eq_map']
  · rw [List.forall₂_map_right_iff, List.forall₂_same]
    intro p _
    exact lineFilter_gives p.1 p.2

end LogQuery
