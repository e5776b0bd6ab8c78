import LogQuery.Proofs.Lossless
import LogQuery.Proofs.Sentence.Flawless
import LogQuery.Proofs.Sentence.Stage

/-! Every log query that is meant is read: printed with blanks it has no error node, and its tree is
the one that it is to have. -/
namespace LogQuery

open Kind (mark)

namespace Grammar

variable {levels : Nat} {us : List Token}

theorem pipeline_takes (ss : List Stage) (hl : deepest Stage.levels ss ≤ levels)
    (hw : ∀ s ∈ ss, s.opensUnwrap = false)
    (hc : ss.IsChain fun a b => ¬ (a.endsOpen ∧ b.opensComparison)) (hu : AtPipelineEnd us) :
    when atStage (pipeline levels) (ss.flatMap Stage.tokens ++ us) =
      ⟨Sentence.pipelineTrees ss, us, deepest Stage.levels ss, none⟩ := by
  cases ss with
  | nil => exact when_skips hu.no_stage
  | cons s ss =>
    have hs : atStage ((s :: ss).flatMap Stage.tokens ++ us) = true := by
      rw [List.flatMap_cons, List.append_assoc]
      cases s with
      | line t => rw [atStage, Stage.tokens, atLineFilter_tokens, Bool.true_or]
      | piped p => exact atStage_piped p (hw _ (.head _)) _
    exact (when_takes hs).trans (node_takes (stages_take (s :: ss) hl hw hc hu))

theorem logExpr_takes (s : Sentence) (hl : deepest Stage.levels s.stages ≤ levels)
    (hr : s.Readable) (hu : AtPipelineEnd us) :
    logExpr levels (s.tokens ++ us) =
      ⟨[.node .logExpr (s.selectorTree :: Sentence.pipelineTrees s.stages)], us,
        deepest Stage.levels s.stages, none⟩ := by
  have hp := pipeline_takes s.stages hl hr.no_unwrap hr.no_comparison hu
  have h := node_takes (k := .logExpr) (seq_takes (selector_takes s _)
    (seq_takes hp (seq_takes_nil us)))
  simpa [logExpr, Sentence.tokens] using h

/-- The depth that is found is the depth of the query, so no level is refused. -/
theorem expr_takes (s : Sentence) (hl : s.levels ≤ levels) (hr : s.Readable) :
    expr levels 0 s.tokens =
      ⟨[.node .expr [.node .logExpr (s.selectorTree :: Sentence.pipelineTrees s.stages)]], [],
        s.levels, none⟩ := by
  rw [Sentence.levels] at hl ⊢
  obtain ⟨levels, rfl⟩ : ∃ l, levels = l + 1 := ⟨levels - 1, by omega⟩
  have hend : AtPipelineEnd [] := ⟨by decide, rfl⟩
  have hl' : deepest Stage.levels s.stages ≤ levels := by omega
  have hlog := logExpr_takes s hl' hr hend
  rw [List.append_nil] at hlog
  have ho : operand levels (expr levels 0) s.tokens =
      node .expr (logExpr levels) s.tokens := rfl
  have hstop : ∀ lhs, joined binaryJoin binary (fun right => orMissing .expr (expr levels right)) 0
      lhs [] = ⟨[lhs], [], 0, none⟩ := fun _ => joined_of_none rfl
  rw [expr, deepen, chain_eq (ho.trans (node_takes hlog)), hstop]
  simp [Found.absorbed]

theorem queryTree_sentence (s : Sentence) (hl : s.levels ≤ levels) (hr : s.Readable) :
    queryTree levels s.tokens = s.tree := by
  rw [queryTree, contents, andThen, expr_takes s hl hr]
  rfl

end Grammar

/-- A query that nests no deeper than the grammar allows, printed with a blank between its tokens,
has no error node, and its tree is the one of its selector and its stages in their order. -/
theorem parse_sentence (s : Sentence) (hr : s.Readable) (hl : s.levels ≤ Grammar.maxLevels) :
    (parse (Token.spaced s.tokens)).holds .error = false ∧
      (parse (Token.spaced s.tokens)).strip = s.tree := by
  have ht : (parse (Token.spaced s.tokens)).strip = s.tree := by
    rw [parse_strip, Token.significant_spaced (sentence_printed s),
      Grammar.queryTree_sentence s hl hr]
  refine ⟨?_, ht⟩
  rw [Tree.holds, Bool.eq_false_iff]
  intro he
  have h := Tree.kinds_strip _ (l := .error) rfl (List.contains_iff_mem.mp he)
  rw [ht] at h
  exact Tree.sentence_flawless s h

def sampleSentence : Sentence where
  matchers := [⟨⟨"app".toList, by decide⟩, ⟨.eq, by decide⟩, ⟨"\"x\"".toList, by decide⟩⟩]
  comma := true
  stages := [
    .line ⟨⟨.pipeExact, by decide⟩, .text ⟨"\"a\"".toList, by decide⟩,
      [.address ⟨"\"b\"".toList, by decide⟩]⟩,
    .piped (.json []),
    .piped (.label (.orElse
      (.one (.one (.test (.amount ⟨"or".toList, by decide⟩ ⟨.gtr, by decide⟩ ⟨.duration, by decide⟩
        ⟨"5m".toList, by decide⟩))))
      (.one (.group (.one (.one (.test (.matching ⟨⟨"c".toList, by decide⟩, ⟨.re, by decide⟩,
        ⟨"\"y\"".toList, by decide⟩⟩))))))))]

def sampleText : Text :=
  "\x7b app = \"x\" , \x7d |= \"a\" or ip ( \"b\" ) | json | or > 5m or ( c =~ \"y\" )".toList

theorem parse_sentence_sample : (parse sampleText).holds .error = false := by
  have ht : Token.spaced sampleSentence.tokens = sampleText := by decide
  have hr : sampleSentence.Readable := ⟨by decide, by decide⟩
  rw [← ht]
  exact (parse_sentence sampleSentence hr (by decide)).1

end LogQuery
