import LogQuery.Proofs.Metric
import LogQuery.Proofs.Sentence.Flawless

/-! Metric expressions are printed in tokens that are read back one by one, and the trees that they
are to have are free of error nodes. -/
namespace LogQuery

open Kind (mark)
open Grammar (binaryOps)

variable {k : Kind}

theorem keyword_whole (w : Keyword) : w.token.Whole := by
  have hl : ∀ w ∈ Keyword.all, Token.lex w.token.text = [w.token] := by decide +kernel
  have hw : w ∈ Keyword.all := by cases w <;> decide
  exact ⟨hl w hw, (by decide : Kind.identifier ∉ Token.openKinds)⟩

@[simp] theorem number_whole (x : Lexeme .number) : x.token.Whole :=
  ⟨x.lexes, (by decide : Kind.number ∉ Token.openKinds)⟩

@[simp] theorem duration_whole (x : Lexeme .duration) : x.token.Whole :=
  ⟨x.lexes, (by decide : Kind.duration ∉ Token.openKinds)⟩

/-- The signs that log queries do without. -/
def metricSigns : List Kind := [.lBracket, .rBracket, .add, .sub, .mul, .div, .mod, .pow]

theorem metricSign_whole (h : k ∈ metricSigns) : k.token.Whole := by
  have hl : ∀ k ∈ metricSigns, Token.lex k.token.text = [k.token] := by decide +kernel
  have hc : ∀ k ∈ metricSigns, k.token.kind ∉ Token.openKinds := by decide
  exact ⟨hl k h, hc k h⟩

theorem operator_whole (op : Sign binaryOps) : op.val.token.Whole := by
  obtain ⟨k, hk⟩ := op
  have hs : ∀ k ∈ binaryOps, k ∈ metricSigns ∨ (k ∈ signs ∧ k.token = mark k) ∨
      ∃ w ∈ Keyword.all, k = .keyword w := by decide
  rcases hs k hk with h | ⟨h, ht⟩ | ⟨w, _, rfl⟩
  · exact metricSign_whole h
  · exact ht ▸ mark_whole h
  · exact keyword_whole w

theorem grouping_printed (g : Grouping) : Printed g.tokens := by
  have hx : ∀ x : Lexeme .identifier, Printed [x.token] := fun x => by simp
  simp (disch := decide) [Grouping.tokens, keyword_whole, printed_commas hx]

theorem unwrapping_printed (u : Unwrapping) : Printed u.tokens := by
  have hf : ∀ f, Printed (Unwrapping.filterTokens f) := fun f => by
    simp (disch := decide) [Unwrapping.filterTokens, disjunction_printed]
  have hu : Printed u.labelTokens := by
    unfold Unwrapping.labelTokens
    split <;> simp (disch := decide) [keyword_whole]
  simp (disch := decide) [Unwrapping.tokens, hu, printed_flatMap hf]

theorem logRange_duration_printed (r : LogRange) : Printed r.durationTokens := by
  simp (disch := decide) [LogRange.durationTokens, metricSign_whole]

theorem logRange_printed (r : LogRange) : Printed r.tokens := by
  have ho : ∀ x, Printed (LogRange.offsetTokens x) := fun x => by
    simp [LogRange.offsetTokens, keyword_whole]
  simp [LogRange.tokens, sentence_printed, printed_flatMap unwrapping_printed,
    logRange_duration_printed, printed_flatMap ho]

namespace Metric

theorem groupTokens_printed (g : Option Grouping) : Printed (groupTokens g) :=
  printed_flatMap grouping_printed _

theorem parameterTokens_printed (x : Option (Lexeme .number)) : Printed (parameterTokens x) :=
  printed_flatMap (fun x => by simp (disch := decide)) _

theorem signTokens_printed (s : Option (Sign [.add, .sub])) : Printed (signTokens s) := by
  cases s with
  | none => exact printed_nil
  | some s =>
    have hs : ∀ k ∈ [Kind.add, .sub], k ∈ metricSigns := by decide
    simp [signTokens, metricSign_whole (hs s.val s.property)]

theorem boolTokens_printed (b : Bool) : Printed (boolTokens b) := by
  cases b <;> simp [boolTokens, keyword_whole]

theorem tokens_printed (e : Metric) : Printed e.tokens := by
  induction e with
  | number s x => simp [tokens, signTokens_printed]
  | vector x => simp (disch := decide) [tokens]
  | range op x r g =>
    simp (disch := decide) [tokens, keyword_whole, parameterTokens_printed, logRange_printed,
      groupTokens_printed]
  | aggregate op b x e a ih =>
    simp (disch := decide) [tokens, keyword_whole, parameterTokens_printed, ih,
      groupTokens_printed]
  | binary op b l r hl hr => simp [tokens, operator_whole, boolTokens_printed, hl, hr]
  | parens e ih => simp (disch := decide) [tokens, ih]

end Metric

namespace Tree

variable {cs : List Tree}

theorem allFlawless_map {α : Type} {f : α → Tree} (h : ∀ x, (f x).Flawless) (xs : List α) :
    AllFlawless (xs.map f) := by
  induction xs with
  | nil => simp
  | cons x xs ih => simp [h x, ih]

theorem grouping_flawless (g : Grouping) : g.tree.Flawless := by
  have hx : ∀ x : Lexeme .identifier, (ofToken x.token).Flawless := fun x =>
    flawless_ofToken (identifier_whole x)
  have hl : AllFlawless (Grouping.labelsTrees g.labels) := by
    cases g.labels with
    | nil => simp [Grouping.labelsTrees]
    | cons x xs => simp [Grouping.labelsTrees, allFlawless_commas hx (x :: xs)]
  simp (disch := decide) [Grouping.tree, hl]

theorem unwrapping_flawless (u : Unwrapping) : u.tree.Flawless := by
  have hx : (ofToken u.label.token).Flawless := flawless_ofToken (identifier_whole u.label)
  have hu : AllFlawless u.labelTrees := by
    unfold Unwrapping.labelTrees
    split <;> simp (disch := decide) [hx]
  have hf : AllFlawless (u.filters.flatMap Unwrapping.filterTrees) := by
    induction u.filters with
    | nil => simp
    | cons f fs ih => simp (disch := decide) [Unwrapping.filterTrees, disjunction_flawless, ih]
  simp (disch := decide) [Unwrapping.tree, hu, hf]

theorem offset_flawless (x : Lexeme .duration) : (LogRange.offsetTree x).Flawless := by
  simp [LogRange.offsetTree, flawless_ofToken]

theorem logRange_flawless (r : LogRange) : r.tree.Flawless := by
  have hs := sentence_flawless r.logs
  simp only [Sentence.tree, flawless_node, allFlawless_cons] at hs
  obtain ⟨-, ⟨-, ⟨-, hselector, hpipeline⟩, -⟩, -⟩ := hs
  have hd : AllFlawless (r.durationTokens.map ofToken) :=
    allFlawless_ofToken (logRange_duration_printed r)
  simp [LogRange.tree, hselector, hpipeline, hd, allFlawless_map unwrapping_flawless,
    allFlawless_map offset_flawless]

/-- The parts of an expression are in two nodes. -/
theorem sample_flawless : (Metric.sample cs).Flawless ↔ AllFlawless cs := by
  simp [Metric.sample]

theorem metric_flawless (e : Metric) : e.tree.Flawless := by
  have hparameter : ∀ x, AllFlawless ((Metric.parameterTokens x).map ofToken) := fun x =>
    allFlawless_ofToken (Metric.parameterTokens_printed x)
  have hgroup := fun g : Option Grouping => allFlawless_map grouping_flawless g.toList
  induction e with
  | number s x =>
    have hs := allFlawless_ofToken (Metric.tokens_printed (.number s x))
    rw [Metric.tokens] at hs
    rw [Metric.tree, sample_flawless]
    simpa using hs
  | vector x =>
    have hx : (ofToken x.token).Flawless := flawless_ofToken (number_whole x)
    rw [Metric.tree, sample_flawless]
    simp (disch := decide) [hx]
  | range op x r g =>
    rw [Metric.tree, sample_flawless]
    simp (disch := decide) [hparameter, logRange_flawless, hgroup]
  | aggregate op b x e a ih =>
    rw [Metric.tree, sample_flawless]
    simp (disch := decide) [hparameter, ih, hgroup]
  | binary op b l r hl hr =>
    have hop : (Metric.operatorLeaf op.val).Flawless := by
      have hk : ∀ k ∈ binaryOps, .error ≠ k := by decide
      simpa [Flawless, Metric.operatorLeaf, kinds] using hk op.val op.property
    have hb : AllFlawless (Metric.boolTrees b) := by
      cases b <;> simp [Metric.boolTrees]
    rw [Metric.tree, sample_flawless]
    simp [hl, hop, hb, hr]
  | parens e ih =>
    rw [Metric.tree, sample_flawless]
    simp (disch := decide) [ih]

end Tree

end LogQuery
