import LogQuery.Proofs.Metric
import LogQuery.Proofs.Acceptance

/-! Rules read back what is meant: ranges of logs, groupings, and the calls they stand in. -/
namespace LogQuery.Grammar

open Kind (mark)

variable {levels d : Nat} {ts us : List Token} {cs : List Tree} {inner : Rule}

theorem unwrapped_takes (u : Unwrapping) (hu : kindAt 0 us ≠ .lParen) :
    unwrapped (u.labelTokens ++ us) = ⟨u.labelTrees, us, 0, none⟩ := by
  obtain ⟨w, x, fs⟩ := u
  cases w with
  | none =>
    unfold unwrapped
    split
    · next t text more h =>
      obtain ⟨_, rfl⟩ : x.token = t ∧ us = ⟨.lParen, text⟩ :: more := by
        simpa [Unwrapping.labelTokens] using h
      exact (hu rfl).elim
    · rfl
  | some w =>
    have hw : ∀ w ∈ Keyword.conversions, Keyword.ofText? Keyword.conversions w.text = some w := by
      decide +kernel
    simp only [Unwrapping.labelTokens, unwrapped, Keyword.token, mark, List.cons_append,
      List.nil_append, if_true, hw w.val w.property]
    rfl

/-- A bar and a label filter: one more filter behind an unwrapped label. -/
def atUnwrapFilter : Look := fun ts => kindAt 0 ts = .pipe && atLabelFilter 1 ts

theorem unwrapFilters_eq (levels : Nat) :
    many atUnwrapFilter (andThen bump (labelFilter levels 0)) =
      when atUnwrapFilter (andThen (andThen bump (labelFilter levels 0))
        (many atUnwrapFilter (andThen bump (labelFilter levels 0)))) :=
  many_eq fun ts h => by
    have hk : kindAt 0 ts = .pipe := by simp_all [atUnwrapFilter]
    exact shorter_andThen (shorter_bump (kindAt_ne_nil hk (by decide)))

theorem unwrapFilters_take (fs : List LabelDisjunction)
    (hl : deepest LabelDisjunction.levels fs ≤ levels) (hu : AtStageEnd us)
    (hf : atUnwrapFilter us = false) :
    many atUnwrapFilter (andThen bump (labelFilter levels 0))
        (fs.flatMap Unwrapping.filterTokens ++ us) =
      ⟨fs.flatMap Unwrapping.filterTrees, us, deepest LabelDisjunction.levels fs, none⟩ := by
  induction fs with
  | nil => exact many_skips hf
  | cons f fs ih =>
    have hl' : f.levels ≤ levels ∧ deepest LabelDisjunction.levels fs ≤ levels := by
      simpa [deepest] using hl
    have hmore := ih hl'.2
    set more := fs.flatMap Unwrapping.filterTokens ++ us with hm
    have hend : AtStageEnd more := by
      cases fs with
      | nil => exact hu
      | cons g gs =>
        show Kind.pipe ∈ stageEnds
        decide
    have hp : atUnwrapFilter (mark .pipe :: (f.tokens ++ more)) = true := by
      have h := atLabelFilter_disjunction f more
      rw [atUnwrapFilter, Bool.and_eq_true]
      exact ⟨rfl, h⟩
    have hb : bump (mark .pipe :: (f.tokens ++ more)) =
        ⟨[.ofToken (mark .pipe)], f.tokens ++ more, 0, none⟩ := rfl
    have h := andThen_takes (andThen_takes hb (disjunction_reads f hl'.1 hend)) hmore
    have ht : (f :: fs).flatMap Unwrapping.filterTokens ++ us =
        mark .pipe :: (f.tokens ++ more) := by
      simp [Unwrapping.filterTokens, hm]
    rw [ht, unwrapFilters_eq, when_takes hp, h]
    simp [Unwrapping.filterTrees, deepest]

theorem unwrap_takes (u : Unwrapping) (hl : u.levels ≤ levels) (hu : kindAt 0 us = .lBracket) :
    unwrap levels (u.tokens ++ us) = ⟨[u.tree], us, u.levels, none⟩ := by
  have hend : AtStageEnd us := by
    rw [AtStageEnd, hu]
    decide
  have hf : atUnwrapFilter us = false := by
    simp [atUnwrapFilter, hu]
  have hnext : kindAt 0 (u.filters.flatMap Unwrapping.filterTokens ++ us) ≠ .lParen := by
    cases u.filters with
    | nil =>
      rw [List.flatMap_nil, List.nil_append, hu]
      decide
    | cons f fs => exact Kind.noConfusion
  have hb : bump (mark .pipe :: Keyword.unwrap.token :: (u.labelTokens ++
      (u.filters.flatMap Unwrapping.filterTokens ++ us))) =
        ⟨[.ofToken (mark .pipe)], _, 0, none⟩ := rfl
  have h := node_takes (k := .unwrapExpr) (seq_takes hb (seq_takes (bumpWord_takes .unwrap _)
    (seq_takes (unwrapped_takes u hnext)
      (seq_takes (unwrapFilters_take u.filters hl hend hf) (seq_takes_nil us)))))
  have hr : unwrap levels = node .unwrapExpr (seq [bump, bumpWord .unwrap, unwrapped,
      many atUnwrapFilter (andThen bump (labelFilter levels 0))]) := rfl
  simpa [hr, Unwrapping.tokens, Unwrapping.tree, Unwrapping.levels] using h

def atUnwrap : Look := fun ts => kindAt 0 ts = .pipe && wordAt 1 .unwrap ts

theorem unwrapping_takes (u : Option Unwrapping)
    (hl : deepest Unwrapping.levels u.toList ≤ levels) (hu : kindAt 0 us = .lBracket) :
    when atUnwrap (unwrap levels) (u.toList.flatMap Unwrapping.tokens ++ us) =
      ⟨u.toList.map Unwrapping.tree, us, deepest Unwrapping.levels u.toList, none⟩ := by
  cases u with
  | none => exact when_skips (by simp [atUnwrap, hu])
  | some u =>
    have hl' : u.levels ≤ levels := by simpa [deepest] using hl
    have h := unwrap_takes u hl' hu
    have hp : atUnwrap (u.tokens ++ us) = true := rfl
    simpa [deepest] using (when_takes hp).trans h

theorem range_takes (r : LogRange) (us : List Token) :
    when (atKind .lBracket) range (r.durationTokens ++ us) =
      ⟨[.node .range (r.durationTokens.map .ofToken)], us, 0, none⟩ := rfl

theorem offset_takes (x : Option (Lexeme .duration)) (hu : wordAt 0 .offset us = false) :
    when (wordAt 0 .offset) offset (x.toList.flatMap LogRange.offsetTokens ++ us) =
      ⟨x.toList.map LogRange.offsetTree, us, 0, none⟩ := by
  cases x with
  | none => exact when_skips hu
  | some x => rfl

/-- What a range is read by behind its selector. -/
def rangeParts (levels : Nat) : List Rule :=
  [when (atKind .lBracket) range, when atStage (pipeline levels), when atUnwrap (unwrap levels),
    when (atKind .lBracket) range, when (wordAt 0 .offset) offset]

/-- Nothing of a range but its offset begins with a name or ends it. -/
theorem rangeParts_skip (h : kindAt 0 us ∈ [.identifier, .rParen]) :
    atKind .lBracket us = false ∧ atStage us = false ∧ atUnwrap us = false := by
  have hne : ∀ k ∉ [Kind.identifier, .rParen], kindAt 0 us ≠ k := fun k hk he => hk (he ▸ h)
  have hline : atLineFilter us = false := by
    unfold atLineFilter
    split <;> simp_all
  refine ⟨atKind_of_kindAt (hne _ (by decide)), ?_, ?_⟩
  · simp [atStage, hline, hne .pipe (by decide)]
  · simp [atUnwrap, hne .pipe (by decide)]

/-- A stage or an unwrapped label keeps the range from being taken too early. -/
theorem stages_no_range {ss : List Stage} {u : Option Unwrapping} (h : ¬ (ss = [] ∧ u = none)) :
    atKind .lBracket (ss.flatMap Stage.tokens ++ (u.toList.flatMap Unwrapping.tokens ++ us)) =
      false := by
  cases ss with
  | nil =>
    cases u with
    | none => exact (h ⟨rfl, rfl⟩).elim
    | some u => rfl
  | cons s ss =>
    cases s with
    | piped p => rfl
    | line t =>
      have ht : t.op.val ≠ .lBracket :=
        (by decide : ∀ k ∈ lineOps, k ≠ .lBracket) t.op.val t.op.property
      rw [List.flatMap_cons, List.append_assoc]
      exact decide_eq_false ht

theorem pipelineEnd_range (u : Option Unwrapping) (h : kindAt 0 us = .lBracket) :
    AtPipelineEnd (u.toList.flatMap Unwrapping.tokens ++ us) := by
  cases u with
  | none =>
    have hline : atLineFilter us = false := by simp [atLineFilter, h]
    refine ⟨?_, ?_⟩
    · show kindAt 0 us ∈ _
      rw [h]
      decide
    · show atStage us = false
      simp [atStage, hline, h]
  | some u => exact ⟨(by decide : Kind.pipe ∈ [Kind.eof, .rParen, .lBracket, .pipe]), rfl⟩

/-- Without stages and an unwrapped label, the range is where it may also stand before these. -/
theorem rangeParts_take (r : LogRange) (hl : r.levels ≤ levels) (hu : kindAt 0 us = .rParen) :
    seq (rangeParts levels) (r.logs.stages.flatMap Stage.tokens ++
        (r.unwrapping.toList.flatMap Unwrapping.tokens ++
          (r.durationTokens ++ (r.offset.toList.flatMap LogRange.offsetTokens ++ us)))) =
      ⟨Sentence.pipelineTrees r.logs.stages ++ (r.unwrapping.toList.map Unwrapping.tree ++
        (.node .range (r.durationTokens.map .ofToken) ::
          r.offset.toList.map LogRange.offsetTree)), us, r.levels, none⟩ := by
  rw [LogRange.levels, Nat.max_le] at hl
  have hname : wordAt 0 .offset us = false := wordAt_of_kindAt (by rw [hu]; decide) _
  have hoffset := seq_takes (offset_takes r.offset hname) (seq_takes_nil us)
  set behind := r.offset.toList.flatMap LogRange.offsetTokens ++ us with hb
  have hkind : kindAt 0 behind ∈ [.identifier, .rParen] := by
    cases ho : r.offset <;> simp [hb, ho, hu, LogRange.offsetTokens, Keyword.token]
  -- Only behind a bare selector is the range taken at the first of its two places.
  by_cases hn : r.logs.stages = [] ∧ r.unwrapping = none
  · obtain ⟨hrange, hstage, hunwrap⟩ := rangeParts_skip hkind
    have h : seq (rangeParts levels) (r.durationTokens ++ behind) = ⟨_, us, _, none⟩ :=
      seq_takes (range_takes r behind) (seq_takes (when_skips hstage)
        (seq_takes (when_skips hunwrap) (seq_takes (when_skips hrange) hoffset)))
    simpa [rangeParts, hn, LogRange.levels, Sentence.pipelineTrees, deepest] using h
  · have hbracket : kindAt 0 (r.durationTokens ++ behind) = .lBracket := rfl
    have hpipeline := pipeline_takes r.logs.stages hl.1 r.readable.no_unwrap
      r.readable.no_comparison (pipelineEnd_range r.unwrapping hbracket)
    have h : seq (rangeParts levels) _ = ⟨_, us, _, none⟩ :=
      seq_takes (when_skips (stages_no_range hn)) (seq_takes hpipeline
        (seq_takes (unwrapping_takes r.unwrapping hl.2 hbracket)
          (seq_takes (range_takes r behind) hoffset)))
    simpa [rangeParts, LogRange.levels] using h

theorem logRange_takes (r : LogRange) (hl : r.levels ≤ levels) (hu : kindAt 0 us = .rParen) :
    logRange levels (r.tokens ++ us) = ⟨[r.tree], us, r.levels, none⟩ := by
  set behind := r.logs.stages.flatMap Stage.tokens ++ (r.unwrapping.toList.flatMap Unwrapping.tokens
    ++ (r.durationTokens ++ (r.offset.toList.flatMap LogRange.offsetTokens ++ us))) with hb
  have hs : either (fun ts => kindAt 0 ts = .lParen && kindAt 1 ts = .lBrace)
      (seq [bump, selector, when atStage (pipeline levels), expect .rParen])
      (either (atKind .lBrace) selector missing) (r.logs.selectorTokens ++ behind) =
        ⟨[r.logs.selectorTree], behind, 0, none⟩ :=
    (either_skips rfl).trans ((either_takes rfl).trans (selector_takes r.logs behind))
  have h := node_takes (k := .logRangeExpr) (seq_takes hs (rangeParts_take r hl hu))
  have hr : logRange levels = node .logRangeExpr (seq (_ :: rangeParts levels)) := rfl
  simpa [hr, LogRange.tokens, LogRange.tree, Sentence.tokens, hb] using h

theorem labels_take (xs : List (Lexeme .identifier)) (us : List Token) :
    when (atKind .identifier) (node .labels (commaList bump))
        (commaTokens (fun x : Lexeme .identifier => [x.token]) xs ++ mark .rParen :: us) =
      ⟨Grouping.labelsTrees xs, mark .rParen :: us, 0, none⟩ := by
  cases xs with
  | nil => rfl
  | cons x xs =>
    have h : commaList bump (commaTokens (fun x : Lexeme .identifier => [x.token]) (x :: xs) ++
        mark .rParen :: us) =
          ⟨commaTrees (.ofToken ·.token) (x :: xs), mark .rParen :: us, 0, none⟩ :=
      commaList_takes (f := fun x : Lexeme .identifier => [x.token]) (Q := fun _ _ => True)
        (fun _ _ _ => rfl) (fun _ _ => trivial) (fun _ _ => rfl) x xs (fun _ _ => trivial) rfl
    exact (when_takes rfl).trans (node_takes h)

theorem groupingWord_takes {w : Keyword} (hw : w ∈ [.groupBy, .groupWithout]) (ts : List Token) :
    atGrouping (w.token :: mark .lParen :: ts) = true ∧
      either (wordAt 0 .groupBy) (bumpWord .groupBy) (bumpWord .groupWithout) (w.token :: ts) =
        ⟨[w.leaf], ts, 0, none⟩ := by
  simp only [List.mem_cons, List.not_mem_nil, or_false] at hw
  rcases hw with rfl | rfl <;> exact ⟨rfl, rfl⟩

theorem grouping_takes (g : Grouping) (us : List Token) :
    grouping (g.tokens ++ us) = ⟨[g.tree], us, 0, none⟩ := by
  have hw := fun ts => (groupingWord_takes g.word.property ts).2
  set behind := commaTokens (fun x => [x.token]) g.labels ++ mark .rParen :: us with hb
  have hopen : bump (mark .lParen :: behind) = ⟨[.ofToken (mark .lParen)], behind, 0, none⟩ := rfl
  have hclose : seq [expect .rParen] (mark .rParen :: us) =
      ⟨[.ofToken (mark .rParen)], us, 0, none⟩ := rfl
  have h := node_takes (k := .grouping) (seq_takes (hw _) (seq_takes hopen
    (seq_takes (labels_take g.labels us) hclose)))
  simpa [grouping, Grouping.tokens, Grouping.tree, hb] using h

theorem optional_grouping_takes (g : Option Grouping) (hu : atGrouping us = false) :
    when atGrouping grouping (Metric.groupTokens g ++ us) =
      ⟨g.toList.map Grouping.tree, us, 0, none⟩ := by
  cases g with
  | none => exact when_skips hu
  | some g =>
    have ht : Metric.groupTokens (some g) = g.tokens := by simp [Metric.groupTokens]
    have hp : atGrouping (g.tokens ++ us) = true := (groupingWord_takes g.word.property _).1
    rw [ht]
    exact (when_takes hp).trans (grouping_takes g us)

/-- No number with a comma behind it: nothing that would be taken for a parameter. -/
def NoParameter (us : List Token) : Prop := kindAt 0 us = .number → kindAt 1 us ≠ .comma

theorem parameter_takes (x : Option (Lexeme .number)) (hu : NoParameter us) :
    parameter (Metric.parameterTokens x ++ us) =
      ⟨(Metric.parameterTokens x).map .ofToken, us, 0, none⟩ := by
  cases x with
  | none =>
    have hp : (kindAt 0 us = .number && kindAt 1 us = .comma) = false := by
      by_cases h : kindAt 0 us = .number
      · simp [hu h]
      · simp [h]
    exact when_skips hp
  | some x => rfl

/-- The parentheses of a call around what its parameter is followed by. -/
theorem arguments_take (x : Option (Lexeme .number))
    (h : inner ts = ⟨cs, mark .rParen :: us, d, none⟩) (hn : NoParameter ts) :
    arguments (andThen parameter inner) (mark .lParen :: (Metric.parameterTokens x ++ ts)) =
      ⟨.ofToken (mark .lParen) :: ((Metric.parameterTokens x).map .ofToken ++
        (cs ++ [.ofToken (mark .rParen)])), us, d, none⟩ := by
  have hopen : bump (mark .lParen :: (Metric.parameterTokens x ++ ts)) =
      ⟨[.ofToken (mark .lParen)], Metric.parameterTokens x ++ ts, 0, none⟩ := rfl
  have hclose : seq [expect .rParen] (mark .rParen :: us) =
      ⟨[.ofToken (mark .rParen)], us, 0, none⟩ := rfl
  have h := seq_takes hopen (seq_takes (andThen_takes (parameter_takes x hn) h) hclose)
  rw [arguments, either_takes rfl, h]
  simp

theorem rangeAggregation_takes (op : Word Keyword.rangeOps) (x : Option (Lexeme .number))
    (r : LogRange) (g : Option Grouping) (hl : r.levels ≤ levels) (hu : atGrouping us = false) :
    rangeAggregation levels op.val ((Metric.range op x r g).tokens ++ us) =
      ⟨[.node .rangeAggregationExpr (.node .rangeOp [op.val.leaf] ::
        .ofToken (mark .lParen) :: ((Metric.parameterTokens x).map .ofToken ++ (r.tree ::
          .ofToken (mark .rParen) :: g.toList.map Grouping.tree)))], us, r.levels, none⟩ := by
  have hr : logRange levels (r.tokens ++ mark .rParen :: (Metric.groupTokens g ++ us)) =
      ⟨[r.tree], _, r.levels, none⟩ := logRange_takes r hl rfl
  have hn : NoParameter (r.tokens ++ mark .rParen :: (Metric.groupTokens g ++ us)) :=
    fun h => Kind.noConfusion h
  have h := node_takes (k := .rangeAggregationExpr)
    (seq_takes (node_takes (k := .rangeOp) (bumpWord_takes op.val _))
      (seq_takes (arguments_take x hr hn)
        (seq_takes (optional_grouping_takes g hu) (seq_takes_nil us))))
  simpa [rangeAggregation, Metric.tokens] using h

theorem vectorAggregation_takes (op : Word Keyword.vectorOps) (b a : Option Grouping)
    (x : Option (Lexeme .number)) {t : Tree} {ds : List Token} (hk : t.kind = .expr)
    (h : inner (ds ++ mark .rParen :: (Metric.groupTokens a ++ us)) =
      ⟨[t], mark .rParen :: (Metric.groupTokens a ++ us), d, none⟩)
    (hn : NoParameter (ds ++ mark .rParen :: (Metric.groupTokens a ++ us)))
    (hu : atGrouping us = false) :
    vectorAggregation inner op.val (op.val.token :: (Metric.groupTokens b ++ (mark .lParen ::
        (Metric.parameterTokens x ++ (ds ++ mark .rParen :: (Metric.groupTokens a ++ us)))))) =
      ⟨[.node .vectorAggregationExpr (.node .vectorOp [op.val.leaf] ::
        (b.toList.map Grouping.tree ++ (.ofToken (mark .lParen) ::
          ((Metric.parameterTokens x).map .ofToken ++ (t ::
            .ofToken (mark .rParen) :: a.toList.map Grouping.tree)))))], us, d, none⟩ := by
  have h := node_takes (k := .vectorAggregationExpr)
    (seq_takes (node_takes (k := .vectorOp) (bumpWord_takes op.val _))
      (seq_takes (optional_grouping_takes b rfl)
        (seq_takes (arguments_take x (orMissing_takes h hk) hn)
          (seq_takes (optional_grouping_takes a hu) (seq_takes_nil us)))))
  simpa [vectorAggregation] using h

end LogQuery.Grammar
