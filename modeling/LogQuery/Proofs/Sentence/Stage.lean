import LogQuery.Proofs.Sentence.Filter

/-! Rules read back what is meant: the stages of a pipeline. -/
namespace LogQuery.Grammar

open Kind (mark)

variable {levels : Nat} {ts us : List Token} {d : Nat} {t : Tree} {w : Keyword}

theorem stageEnd_atKind (h : AtStageEnd us) {k : Kind} (hk : k ∉ stageEnds) :
    atKind k us = false := atKind_of_kindAt (stageEnd_ne h hk)

/-- What a stage after a bar is read by. -/
def pipedRule (levels : Nat) : Rule :=
  either (atLabelFilter 0) (labelFilter levels 0)
    (either (atKind .identifier) wordStage missing)

theorem stage_takes (h : pipedRule levels ts = ⟨[t], us, d, none⟩) :
    stage levels (mark .pipe :: ts) =
      ⟨[.node .pipelineStage [.ofToken (mark .pipe), t]], us, d, none⟩ := by
  have hb : bump (mark .pipe :: ts) = ⟨[.ofToken (mark .pipe)], ts, 0, none⟩ := rfl
  have hl : atLineFilter (mark .pipe :: ts) = false := rfl
  have h := seq_takes hb (seq_takes h (seq_takes_nil us))
  have hn := node_takes (k := .pipelineStage) ((either_skips (a := lineFilters levels) hl).trans h)
  simpa [stage, pipedRule] using hn

theorem ofText?_clause (h : w ∈ Keyword.clauses) :
    Keyword.ofText? Keyword.clauses w.text = some w := by
  revert w
  decide +kernel

/-- A word that no operator of a comparison follows opens the stage it names. -/
theorem pipedRule_word (hw : w ∈ Keyword.clauses)
    (hk : kindAt 0 ts ∉ matcherOps ++ comparisonOps) :
    pipedRule levels (w.token :: ts) = namedStage w (w.token :: ts) := by
  have hl : atLabelFilter 0 (w.token :: ts) = false := by
    rw [List.mem_append, not_or] at hk
    have h : atLabelFilter 0 (w.token :: ts) =
        (matcherOps.contains (kindAt 0 ts) || comparisonOps.contains (kindAt 0 ts)) := rfl
    simp [h, hk]
  rw [pipedRule, either_skips hl, either_takes rfl]
  simp only [wordStage, Keyword.token, ofText?_clause hw]

theorem bumpWord_takes (w : Keyword) (us : List Token) :
    bumpWord w (w.token :: us) = ⟨[w.leaf], us, 0, none⟩ := rfl

theorem extraction_takes (e : Extraction) (hu : atKind .eq us = false) :
    labelExtraction (e.tokens ++ us) = ⟨[e.tree], us, 0, none⟩ := by
  obtain ⟨x, y⟩ := e
  cases y with
  | none =>
    have hb : bump (x.token :: us) = ⟨[.ofToken x.token], us, 0, none⟩ := rfl
    exact node_takes (seq_takes hb (seq_takes (when_skips hu) (seq_takes_nil us)))
  | some y => rfl

theorem extractions_take (e : Extraction) (es : List Extraction) (hu : AtStageEnd us) :
    labelExtractions (commaTokens Extraction.tokens (e :: es) ++ us) =
      ⟨Piped.extractionTrees (e :: es), us, 0, none⟩ :=
  node_takes (commaList_takes (Q := fun _ us => atKind .eq us = false)
    (fun e us hu => extraction_takes e hu) (fun _ _ => rfl) (fun _ _ => rfl) e es
    (fun _ _ => stageEnd_atKind hu (by decide)) (stageEnd_atNextName hu))

/-- A list of labels to extract, where there is one. -/
theorem optional_extractions_take (es : List Extraction) (hu : AtStageEnd us) :
    when (atKind .identifier) labelExtractions (commaTokens Extraction.tokens es ++ us) =
      ⟨Piped.extractionTrees es, us, 0, none⟩ := by
  cases es with
  | nil => exact when_skips (stageEnd_atKind hu (by decide))
  | cons e es => exact (when_takes rfl).trans (extractions_take e es hu)

theorem atKind_extractions (es : List Extraction) (hu : AtStageEnd us) :
    atKind .identifier (commaTokens Extraction.tokens es ++ us) = !es.isEmpty := by
  cases es with
  | nil => exact stageEnd_atKind hu (by decide)
  | cons e es => rfl

theorem jsonParser_takes (es : List Extraction) (hu : AtStageEnd us) :
    jsonParser (Keyword.json.token :: (commaTokens Extraction.tokens es ++ us)) =
      ⟨[(Piped.json es).tree], us, 0, none⟩ := by
  have hk : (if atKind .identifier (commaTokens Extraction.tokens es ++ us) then
      Kind.jsonExpressionParser else .labelParser) =
        if es.isEmpty then Kind.labelParser else .jsonExpressionParser := by
    rw [atKind_extractions es hu]
    cases es.isEmpty <;> rfl
  have h := seq_takes (bumpWord_takes .json _)
    (seq_takes (optional_extractions_take es hu) (seq_takes_nil us))
  have hn := node_takes (k := if es.isEmpty then Kind.labelParser else .jsonExpressionParser) h
  simp only [jsonParser, List.drop_one, List.tail_cons, hk, hn]
  simp [Piped.tree]

theorem flags_take (xs : List (Lexeme .parserFlag)) (hu : atKind .parserFlag us = false) :
    many (atKind .parserFlag) bump (xs.map Lexeme.token ++ us) =
      ⟨xs.map (.ofToken ·.token), us, 0, none⟩ := by
  induction xs with
  | nil => exact many_skips hu
  | cons x xs ih =>
    have hb : bump (x.token :: (xs.map Lexeme.token ++ us)) =
        ⟨[.ofToken x.token], xs.map Lexeme.token ++ us, 0, none⟩ := rfl
    have hp : atKind .parserFlag (x.token :: (xs.map Lexeme.token ++ us)) = true := rfl
    rw [List.map_cons, List.cons_append, repeat_eq, when_takes hp, andThen_takes hb ih]
    simp

theorem dropWhile_flags (xs : List (Lexeme .parserFlag)) (hu : atKind .parserFlag us = false) :
    (xs.map Lexeme.token ++ us).dropWhile (fun t => t.kind = .parserFlag) = us := by
  induction xs with
  | nil =>
    cases us with
    | nil => rfl
    | cons u us => exact List.dropWhile_cons_of_neg (by simpa [atKind] using hu)
  | cons x xs ih => exact (List.dropWhile_cons_of_pos (by simp [Lexeme.token])).trans ih

theorem atKind_flag_extractions (es : List Extraction) (hu : AtStageEnd us) :
    atKind .parserFlag (commaTokens Extraction.tokens es ++ us) = false := by
  cases es with
  | nil => exact stageEnd_atKind hu (by decide)
  | cons e es => rfl

theorem logfmtKind_tokens (xs : List (Lexeme .parserFlag)) (es : List Extraction)
    (hu : AtStageEnd us) :
    logfmtKind (xs.map Lexeme.token ++ (commaTokens Extraction.tokens es ++ us)) =
      Piped.logfmtKind xs es := by
  rw [logfmtKind, dropWhile_flags xs (atKind_flag_extractions es hu), atKind_extractions es hu,
    Piped.logfmtKind]
  cases es with
  | cons e es => rfl
  | nil =>
    cases xs with
    | nil => simp [commaTokens, stageEnd_atKind hu (k := .parserFlag) (by decide)]
    | cons x xs => rfl

theorem logfmtParser_takes (xs : List (Lexeme .parserFlag)) (es : List Extraction)
    (hu : AtStageEnd us) :
    logfmtParser (Keyword.logfmt.token ::
        (xs.map Lexeme.token ++ (commaTokens Extraction.tokens es ++ us))) =
      ⟨[(Piped.logfmt xs es).tree], us, 0, none⟩ := by
  have hflags := flags_take xs (atKind_flag_extractions es hu)
  have h := seq_takes (bumpWord_takes .logfmt _)
    (seq_takes hflags (seq_takes (optional_extractions_take es hu) (seq_takes_nil us)))
  have hn := node_takes (k := Piped.logfmtKind xs es) h
  simp only [logfmtParser, List.drop_one, List.tail_cons, logfmtKind_tokens xs es hu, hn]
  simp [Piped.tree]

theorem stringStage_takes (k : Kind) (w : Keyword) (x : Lexeme .string) (us : List Token) :
    stringStage k w (w.token :: x.token :: us) =
      ⟨[.node k [w.leaf, .ofToken x.token]], us, 0, none⟩ := rfl

theorem bareStage_takes (k : Kind) (w : Keyword) (us : List Token) :
    bareStage k w (w.token :: us) = ⟨[.node k [w.leaf]], us, 0, none⟩ := rfl

theorem labelFormat_takes (f : Formatting) (us : List Token) :
    labelFormat (f.tokens ++ us) = ⟨[f.tree], us, 0, none⟩ := by
  obtain ⟨x, ⟨k, hk⟩, y⟩ := f
  simp only [List.mem_cons, List.not_mem_nil, or_false] at hk
  rcases hk with rfl | rfl <;> rfl

theorem labelFormats_take (f : Formatting) (fs : List Formatting) (hu : AtStageEnd us) :
    labelFormats (Keyword.labelFormat.token :: (commaTokens Formatting.tokens (f :: fs) ++ us)) =
      ⟨[(Piped.labelFormat f fs).tree], us, 0, none⟩ := by
  have hl := commaList_takes (Q := fun _ _ => True) (fun f us _ => labelFormat_takes f us)
    (fun _ _ => trivial) (fun _ _ => rfl) f fs (fun _ _ => trivial) (stageEnd_atNextName hu)
  exact node_takes (seq_takes (bumpWord_takes .labelFormat _)
    (seq_takes (node_takes hl) (seq_takes_nil us)))

/-- A name in a list is not followed by an operator that would make it a comparison. -/
theorem labelChoice_takes (k : Kind) (c : Choice)
    (hu : c.isName = true → kindAt 0 us ∉ matcherOps) :
    labelChoice k (c.tokens ++ us) = ⟨[c.tree k], us, 0, none⟩ := by
  cases c with
  | name x =>
    have hp : (kindAt 0 (x.token :: us) = .identifier &&
        matcherOps.contains (kindAt 1 (x.token :: us))) = false := by
      have hk : matcherOps.contains (kindAt 0 us) = false := by simpa using hu rfl
      have h : kindAt 1 (x.token :: us) = kindAt 0 us := rfl
      rw [h, hk, Bool.and_false]
    exact node_takes ((either_skips hp).trans rfl)
  | matching m =>
    have hp : (kindAt 0 (m.tokens ++ us) = .identifier &&
        matcherOps.contains (kindAt 1 (m.tokens ++ us))) = true := by
      have hk : matcherOps.contains m.op.val = true := by
        simpa using m.op.property
      have h : kindAt 1 (m.tokens ++ us) = m.op.val := rfl
      rw [h, hk, Bool.and_true]
      rfl
    exact node_takes ((either_takes hp).trans (matcher_takes m us))

theorem labelChoices_take (w : Keyword) (s l i : Kind) (c : Choice) (cs : List Choice)
    (hu : AtStageEnd us)
    (hc : ((c :: cs).getLast (by simp)).isName = true → kindAt 0 us ∉ matcherOps) :
    labelChoices w s l i (w.token :: (commaTokens Choice.tokens (c :: cs) ++ us)) =
      ⟨[.node s [w.leaf, .node l (commaTrees (Choice.tree i) (c :: cs))]], us, 0, none⟩ := by
  have hl := commaList_takes (Q := fun c us => c.isName = true → kindAt 0 us ∉ matcherOps)
    (fun c us hu => labelChoice_takes i c hu)
    (fun _ _ _ => (by decide : Kind.comma ∉ matcherOps))
    (fun c _ => by cases c <;> rfl) c cs
    (fun y hy => by
      rw [List.getLast?_eq_some_getLast (by simp), Option.mem_some_iff] at hy
      exact hy ▸ hc)
    (stageEnd_atNextName hu)
  exact node_takes (seq_takes (bumpWord_takes w _) (seq_takes (node_takes hl) (seq_takes_nil us)))

/-- Of the operators between a label and a value, two also begin a stage. -/
theorem stageEnd_not_op (hu : AtStageEnd us) (h : kindAt 0 us ∉ [.neq, .nre]) :
    kindAt 0 us ∉ matcherOps ++ comparisonOps :=
  (by decide : ∀ k ∈ stageEnds, k ∉ [.neq, .nre] → k ∉ matcherOps ++ comparisonOps) _ hu h

theorem piped_takes (p : Piped) (hl : p.levels ≤ levels) (hu : AtStageEnd us)
    (ho : p.endsOpen = true → kindAt 0 us ∉ [.neq, .nre]) :
    pipedRule levels (p.tokens ++ us) = ⟨[p.tree], us, p.levels, none⟩ := by
  have hchoice : p.endsOpen = true → kindAt 0 us ∉ matcherOps := fun h hk =>
    stageEnd_not_op hu (ho h) (List.mem_append_left _ hk)
  have hstring : ∀ x : Lexeme .string,
      kindAt 0 (x.token :: us) ∉ matcherOps ++ comparisonOps := fun _ =>
    (by decide : Kind.string ∉ matcherOps ++ comparisonOps)
  have hname : Kind.identifier ∉ matcherOps ++ comparisonOps := by decide
  cases p with
  | label f =>
    rw [Piped.tokens, pipedRule, either_takes (atLabelFilter_disjunction f us)]
    exact disjunction_reads f hl hu
  | json es =>
    have hk : kindAt 0 (commaTokens Extraction.tokens es ++ us) ∉ matcherOps ++ comparisonOps := by
      cases es with
      | nil => exact stageEnd_not_op hu (ho rfl)
      | cons e es => exact hname
    exact (pipedRule_word (w := .json) (by decide) hk).trans (jsonParser_takes es hu)
  | logfmt xs es =>
    have hk : kindAt 0 (xs.map Lexeme.token ++ (commaTokens Extraction.tokens es ++ us)) ∉
        matcherOps ++ comparisonOps := by
      cases xs with
      | cons x xs => exact (by decide : Kind.parserFlag ∉ matcherOps ++ comparisonOps)
      | nil =>
        cases es with
        | nil => exact stageEnd_not_op hu (ho rfl)
        | cons e es => exact hname
    rw [Piped.tokens, List.cons_append, List.append_assoc]
    exact (pipedRule_word (w := .logfmt) (by decide) hk).trans (logfmtParser_takes xs es hu)
  | regexp x =>
    exact (pipedRule_word (w := .regexp) (by decide) (hstring x)).trans
      (stringStage_takes .labelParser .regexp x us)
  | pattern x =>
    exact (pipedRule_word (w := .pattern) (by decide) (hstring x)).trans
      (stringStage_takes .labelParser .pattern x us)
  | unpack =>
    exact (pipedRule_word (w := .unpack) (by decide) (stageEnd_not_op hu (ho rfl))).trans
      (bareStage_takes .labelParser .unpack us)
  | decolorize =>
    exact (pipedRule_word (w := .decolorize) (by decide) (stageEnd_not_op hu (ho rfl))).trans
      (bareStage_takes .decolorizeExpr .decolorize us)
  | lineFormat x =>
    exact (pipedRule_word (w := .lineFormat) (by decide) (hstring x)).trans
      (stringStage_takes .lineFormatExpr .lineFormat x us)
  | labelFormat f fs =>
    have hk : kindAt 0 (commaTokens Formatting.tokens (f :: fs) ++ us) ∉
        matcherOps ++ comparisonOps := hname
    exact (pipedRule_word (w := .labelFormat) (by decide) hk).trans (labelFormats_take f fs hu)
  | drop c cs =>
    have hk : kindAt 0 (commaTokens Choice.tokens (c :: cs) ++ us) ∉
        matcherOps ++ comparisonOps := by
      cases c <;> exact hname
    exact (pipedRule_word (w := .drop) (by decide) hk).trans
      (labelChoices_take .drop .dropLabelsExpr .dropLabels .dropLabel c cs hu hchoice)
  | keep c cs =>
    have hk : kindAt 0 (commaTokens Choice.tokens (c :: cs) ++ us) ∉
        matcherOps ++ comparisonOps := by
      cases c <;> exact hname
    exact (pipedRule_word (w := .keep) (by decide) hk).trans
      (labelChoices_take .keep .keepLabelsExpr .keepLabels .keepLabel c cs hu hchoice)

/-- What may follow a pipeline: the end or a bracket, or a bar that opens no stage. -/
structure AtPipelineEnd (us : List Token) : Prop where
  kind : kindAt 0 us ∈ [.eof, .rParen, .lBracket, .pipe]
  no_stage : atStage us = false

theorem atStageEnd_pipelineEnd (h : AtPipelineEnd us) : AtStageEnd us :=
  (by decide : ∀ k ∈ [Kind.eof, .rParen, .lBracket, .pipe], k ∈ stageEnds) _ h.kind

theorem atLineFilter_of_atStage (h : atStage us = false) : atLineFilter us = false := by
  rw [atStage, Bool.or_eq_false_iff] at h
  exact h.1

/-- The stages of a pipeline that begins with line filters, if what follows them is read. -/
theorem lines_take (ls : List LineTest) {cs : List Tree} {vs : List Token}
    (hl : deepest LineTest.levels ls ≤ levels) (hu : AtStageEnd us) (he : atLineFilter us = false)
    (h : many atStage (stage levels) us = ⟨cs, vs, d, none⟩) :
    many atStage (stage levels) (ls.flatMap LineTest.tokens ++ us) =
      ⟨Stage.lineTrees ls ++ cs, vs, max (deepest LineTest.levels ls) d, none⟩ := by
  cases ls with
  | nil => simpa [Stage.lineTrees, deepest] using h
  | cons l ls =>
    have hp : atLineFilter ((l :: ls).flatMap LineTest.tokens ++ us) = true := by
      rw [List.flatMap_cons, List.append_assoc]
      exact atLineFilter_tokens l _
    have hs : atStage ((l :: ls).flatMap LineTest.tokens ++ us) = true := by
      rw [atStage, hp, Bool.true_or]
    have hn := node_takes (k := .lineFilters) (lineTests_take (l :: ls) hl hu he)
    have hf : stage levels ((l :: ls).flatMap LineTest.tokens ++ us) =
        ⟨[.node .pipelineStage [.node .lineFilters ((l :: ls).map LineTest.tree)]], us, _, none⟩ :=
      node_takes ((either_takes hp).trans hn)
    rw [stages_eq, when_takes hs, andThen_takes hf h]
    rfl

def blockTokens (b : Piped × List LineTest) : List Token :=
  mark .pipe :: (b.1.tokens ++ b.2.flatMap LineTest.tokens)

def blockLevels (b : Piped × List LineTest) : Nat := max b.1.levels (deepest LineTest.levels b.2)

/-- The stage does not open an unwrapped range, and keeps apart from the line filter behind it. -/
structure BlockReadable (b : Piped × List LineTest) : Prop where
  no_unwrap : b.1.opensUnwrap = false
  no_comparison : ∀ t ∈ b.2.head?, b.1.endsOpen = true → t.op.val ∉ [Kind.neq, .nre]

theorem wordAt_unwrap (p : Piped) (h : p.opensUnwrap = false) (us : List Token) :
    wordAt 0 .unwrap (p.tokens ++ us) = false := by
  cases p with
  | label f =>
    have hf : wordAt 0 .unwrap f.tokens = false := h
    have hn := atLabelFilter_ne_nil (List.append_nil f.tokens ▸ atLabelFilter_disjunction f [])
    rw [Piped.tokens]
    cases ht : f.tokens with
    | nil => exact (hn ht).elim
    | cons t ts =>
      rw [ht] at hf
      exact hf
  | _ => rfl

theorem atStage_piped (p : Piped) (h : p.opensUnwrap = false) (us : List Token) :
    atStage (mark .pipe :: (p.tokens ++ us)) = true := by
  have hw : wordAt 1 .unwrap (mark .pipe :: (p.tokens ++ us)) = false := wordAt_unwrap p h us
  rw [atStage, hw, Bool.or_eq_true]
  exact Or.inr rfl

theorem blocks_take (bs : List (Piped × List LineTest)) (hl : deepest blockLevels bs ≤ levels)
    (hr : ∀ b ∈ bs, BlockReadable b) (hu : AtPipelineEnd us) :
    many atStage (stage levels) (bs.flatMap blockTokens ++ us) =
      ⟨bs.flatMap Stage.blockTrees, us, deepest blockLevels bs, none⟩ := by
  induction bs with
  | nil => exact many_skips hu.no_stage
  | cons b bs ih =>
    obtain ⟨p, ls⟩ := b
    have hl' : blockLevels (p, ls) ≤ levels ∧ deepest blockLevels bs ≤ levels := by
      simpa [deepest] using hl
    have hb : p.levels ≤ levels ∧ deepest LineTest.levels ls ≤ levels := by
      simpa [blockLevels] using hl'.1
    have hmore := ih hl'.2 fun b hb => hr b (.tail _ hb)
    have hp := hr (p, ls) (.head _)
    have hend : AtStageEnd (bs.flatMap blockTokens ++ us) ∧
        kindAt 0 (bs.flatMap blockTokens ++ us) ∉ [.neq, .nre] ∧
        atLineFilter (bs.flatMap blockTokens ++ us) = false := by
      cases bs with
      | nil =>
        refine ⟨atStageEnd_pipelineEnd hu, ?_, atLineFilter_of_atStage hu.no_stage⟩
        exact (by decide : ∀ k ∈ [Kind.eof, .rParen, .lBracket, .pipe], k ∉ [Kind.neq, .nre]) _
          hu.kind
      | cons c cs =>
        exact ⟨(by decide : Kind.pipe ∈ stageEnds), (by decide : Kind.pipe ∉ [.neq, .nre]), rfl⟩
    obtain ⟨he, hop, hline⟩ := hend
    have hlines := lines_take ls hb.2 he hline hmore
    set after := ls.flatMap LineTest.tokens ++ (bs.flatMap blockTokens ++ us) with ha
    have hae : AtStageEnd after := by
      cases ls with
      | nil => exact he
      | cons l ls =>
        rw [ha, List.flatMap_cons, List.append_assoc]
        exact atStageEnd_line l _
    have hao : p.endsOpen = true → kindAt 0 after ∉ [.neq, .nre] := by
      intro ho
      cases ls with
      | nil => exact hop
      | cons l ls => exact hp.no_comparison l rfl ho
    have hstage : stage levels (mark .pipe :: (p.tokens ++ after)) =
        ⟨[Stage.pipedTree p], after, p.levels, none⟩ := stage_takes (piped_takes p hb.1 hae hao)
    have ht : ((p, ls) :: bs).flatMap blockTokens ++ us = mark .pipe :: (p.tokens ++ after) := by
      simp only [List.flatMap_cons, blockTokens, ha, List.cons_append, List.append_assoc]
    rw [ht, stages_eq, when_takes (atStage_piped p hp.no_unwrap after),
      andThen_takes hstage hlines]
    simp [Stage.blockTrees, deepest, blockLevels, Nat.max_assoc]

theorem tokens_blocks (ss : List Stage) :
    ss.flatMap Stage.tokens =
      (Stage.leadingLines ss).flatMap LineTest.tokens ++ (Stage.blocks ss).flatMap blockTokens := by
  induction ss with
  | nil => rfl
  | cons s ss ih =>
    cases s with
    | line t => simp [Stage.leadingLines, Stage.blocks, Stage.tokens, ih]
    | piped p => simp [Stage.leadingLines, Stage.blocks, Stage.tokens, blockTokens, ih]

theorem levels_blocks (ss : List Stage) :
    deepest Stage.levels ss =
      max (deepest LineTest.levels (Stage.leadingLines ss))
        (deepest blockLevels (Stage.blocks ss)) := by
  induction ss with
  | nil => rfl
  | cons s ss ih =>
    cases s with
    | line t =>
      simp only [deepest, List.foldr_cons, Stage.leadingLines, Stage.blocks, Stage.levels] at ih ⊢
      rw [ih, Nat.max_assoc]
    | piped p =>
      simp only [deepest, List.foldr_cons, List.foldr_nil, Stage.leadingLines, Stage.blocks,
        Stage.levels, blockLevels] at ih ⊢
      rw [ih, Nat.zero_max, Nat.max_assoc]

theorem leadingLines_head {ss : List Stage} {t : LineTest}
    (h : t ∈ (Stage.leadingLines ss).head?) : ∃ more, ss = .line t :: more := by
  cases ss with
  | nil => cases h
  | cons s ss =>
    cases s with
    | line u =>
      obtain rfl : u = t := by simpa [Stage.leadingLines] using h
      exact ⟨ss, rfl⟩
    | piped p => cases h

theorem blocks_readable {ss : List Stage} (hu : ∀ s ∈ ss, s.opensUnwrap = false)
    (hc : ss.IsChain fun a b => ¬ (a.endsOpen ∧ b.opensComparison)) :
    ∀ b ∈ Stage.blocks ss, BlockReadable b := by
  induction ss with
  | nil => simp [Stage.blocks]
  | cons s ss ih =>
    have hmore := ih (fun t ht => hu t (.tail _ ht)) hc.of_cons
    cases s with
    | line t => exact hmore
    | piped p =>
      intro b hb
      rw [Stage.blocks, List.mem_cons] at hb
      obtain rfl | hb := hb
      · refine ⟨hu _ (.head _), fun t ht ho hop => ?_⟩
        obtain ⟨more, rfl⟩ := leadingLines_head ht
        rw [List.isChain_cons_cons] at hc
        exact hc.1 ⟨ho, by simpa [Stage.opensComparison] using hop⟩
      · exact hmore b hb

theorem stages_take (ss : List Stage) (hl : deepest Stage.levels ss ≤ levels)
    (hw : ∀ s ∈ ss, s.opensUnwrap = false)
    (hc : ss.IsChain fun a b => ¬ (a.endsOpen ∧ b.opensComparison)) (hu : AtPipelineEnd us) :
    many atStage (stage levels) (ss.flatMap Stage.tokens ++ us) =
      ⟨Stage.trees ss, us, deepest Stage.levels ss, none⟩ := by
  rw [levels_blocks, Nat.max_le] at hl
  have hb := blocks_take (Stage.blocks ss) hl.2 (blocks_readable hw hc) hu
  have hend : AtStageEnd ((Stage.blocks ss).flatMap blockTokens ++ us) ∧
      atLineFilter ((Stage.blocks ss).flatMap blockTokens ++ us) = false := by
    cases Stage.blocks ss with
    | nil => exact ⟨atStageEnd_pipelineEnd hu, atLineFilter_of_atStage hu.no_stage⟩
    | cons c cs => exact ⟨(by decide : Kind.pipe ∈ stageEnds), rfl⟩
  rw [tokens_blocks, List.append_assoc, lines_take _ hl.1 hend.1 hend.2 hb, levels_blocks]
  rfl

end LogQuery.Grammar
