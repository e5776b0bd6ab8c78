import LogQuery.Proofs.Sentence.Printed

/-! The tree that a log query is to have is free of error nodes. -/
namespace LogQuery

open Kind (mark)

namespace Tree

variable {k : Kind} {c : Tree} {cs ds : List Tree} {t : Token} {ts : List Token}

def Flawless (t : Tree) : Prop := .error ∉ t.kinds

def AllFlawless (cs : List Tree) : Prop := .error ∉ kindsAll cs

@[simp] theorem flawless_node : (node k cs).Flawless ↔ k ≠ .error ∧ AllFlawless cs := by
  simp [Flawless, AllFlawless, kinds, eq_comm]

@[simp] theorem allFlawless_nil : AllFlawless [] := by simp [AllFlawless, kindsAll]

@[simp] theorem allFlawless_cons : AllFlawless (c :: cs) ↔ c.Flawless ∧ AllFlawless cs := by
  simp [AllFlawless, Flawless, kindsAll]

@[simp] theorem allFlawless_append :
    AllFlawless (cs ++ ds) ↔ AllFlawless cs ∧ AllFlawless ds := by
  induction cs with
  | nil => simp
  | cons c cs ih => simp [ih, and_assoc]

@[simp] theorem flawless_leaf (w : Keyword) : w.leaf.Flawless := by
  simp [Keyword.leaf, Flawless, kinds]

/-- No token is read as an error. -/
theorem flawless_ofToken (h : t.Whole) : (ofToken t).Flawless := by
  have hk : t.kind ∈ Token.scanKinds := Token.lex_kind (by rw [h.lexes]; exact .head _)
  simp only [Flawless, ofToken, kinds, List.mem_singleton]
  intro he
  rw [← he] at hk
  exact absurd hk (by decide)

@[simp] theorem flawless_mark (h : k ∈ signs) : (ofToken (mark k)).Flawless :=
  flawless_ofToken (mark_whole h)

@[simp] theorem flawless_string (x : Lexeme .string) : (ofToken x.token).Flawless :=
  flawless_ofToken (string_whole x)

theorem allFlawless_ofToken (h : Printed ts) : AllFlawless (ts.map ofToken) := by
  induction ts with
  | nil => simp
  | cons t ts ih =>
    rw [printed_cons] at h
    simp [flawless_ofToken h.1, ih h.2]

theorem allFlawless_commas {α : Type} {f : α → Tree} (h : ∀ x, (f x).Flawless) (xs : List α) :
    AllFlawless (commaTrees f xs) := by
  have hc : (ofToken (mark .comma)).Flawless := flawless_mark (by decide)
  have hm : ∀ ys : List α, AllFlawless (ys.flatMap fun y => [ofToken (mark .comma), f y]) := by
    intro ys
    induction ys with
    | nil => simp
    | cons y ys ih => simp [hc, h y, ih]
  cases xs with
  | nil => simp [commaTrees]
  | cons x xs => simp [commaTrees, h x, hm xs]

theorem matching_flawless (m : Matching) : m.tree.Flawless := by
  simp [Matching.tree, allFlawless_ofToken]

theorem lineValue_flawless (v : LineValue) : AllFlawless v.trees := by
  cases v <;> simp (disch := decide) [LineValue.trees]

theorem orTrees_flawless (vs : List LineValue) : AllFlawless (LineTest.orTrees vs) := by
  induction vs with
  | nil => simp [LineTest.orTrees]
  | cons v vs ih => simp [LineTest.orTrees, lineValue_flawless, ih]

theorem lineTest_flawless (t : LineTest) : t.tree.Flawless := by
  simp (disch := decide) [LineTest.tree, lineValue_flawless, orTrees_flawless,
    flawless_ofToken (sign_whole t.op (by decide))]

theorem amountTree_flawless (unit : Kind) (h : AllFlawless cs) :
    (LabelTest.amountTree unit cs).Flawless := by
  unfold LabelTest.amountTree
  split <;> simp [h]

theorem labelTest_flawless (t : LabelTest) : t.tree.Flawless := by
  cases t with
  | matching m => exact matching_flawless m
  | address x op y =>
    have ht : AllFlawless ([x.token, op.token].map ofToken) :=
      allFlawless_ofToken (by simp (disch := decide))
    have hm : AllFlawless ([mark .lParen, y.token, mark .rParen].map ofToken) :=
      allFlawless_ofToken (by simp (disch := decide))
    simp only [LabelTest.tree, flawless_node, allFlawless_append, allFlawless_cons, flawless_leaf]
    exact ⟨by decide, ht, trivial, hm⟩
  | amount x op unit y =>
    exact amountTree_flawless _ (allFlawless_ofToken (labelTest_printed (.amount x op unit y)))

theorem joint_flawless (j : Joint) : AllFlawless j.trees := by
  cases j <;> simp (disch := decide) [Joint.trees]

mutual

theorem operand_flawless : (o : LabelOperand) → o.tree.Flawless
  | .test t => by simp [LabelOperand.tree, labelTest_flawless]
  | .group f => by
    simp (disch := decide) [LabelOperand.tree, disjunction_flawless f]

theorem conjunction_flawless : (c : LabelConjunction) → c.tree.Flawless
  | .one o => by simpa [LabelConjunction.tree] using operand_flawless o
  | .also c j o => by
    simp [LabelConjunction.tree, conjunction_flawless c, joint_flawless, operand_flawless o]

theorem disjunction_flawless : (f : LabelDisjunction) → f.tree.Flawless
  | .one c => by simpa [LabelDisjunction.tree] using conjunction_flawless c
  | .orElse f c => by
    simp [LabelDisjunction.tree, disjunction_flawless f, conjunction_flawless c]

end

theorem extraction_flawless (e : Extraction) : e.tree.Flawless := by
  simp [Extraction.tree, allFlawless_ofToken (extraction_printed e)]

theorem extractions_flawless (es : List Extraction) : AllFlawless (Piped.extractionTrees es) := by
  cases es with
  | nil => simp [Piped.extractionTrees]
  | cons e es =>
    simp [Piped.extractionTrees, allFlawless_commas extraction_flawless (e :: es)]

theorem formatting_flawless (f : Formatting) : f.tree.Flawless := by
  simp [Formatting.tree, allFlawless_ofToken (formatting_printed f)]

theorem choice_flawless (hk : k ≠ .error) (c : Choice) : (c.tree k).Flawless := by
  cases c with
  | name x => simp [Choice.tree, hk, flawless_ofToken]
  | matching m => simp [Choice.tree, hk, matching_flawless]

theorem flags_flawless (xs : List (Lexeme .parserFlag)) :
    AllFlawless (xs.map (ofToken ·.token)) := by
  induction xs with
  | nil => simp
  | cons x xs ih => simp [flawless_ofToken, ih]

theorem logfmtKind_ne_error (xs : List (Lexeme .parserFlag)) (es : List Extraction) :
    Piped.logfmtKind xs es ≠ .error := by
  unfold Piped.logfmtKind
  split_ifs <;> decide

theorem piped_flawless (p : Piped) : p.tree.Flawless := by
  have hd := fun c cs =>
    allFlawless_commas (choice_flawless (k := .dropLabel) (by decide)) (c :: cs)
  have hk := fun c cs =>
    allFlawless_commas (choice_flawless (k := .keepLabel) (by decide)) (c :: cs)
  have hf := fun f fs => allFlawless_commas formatting_flawless (f :: fs)
  cases p with
  | label f => exact disjunction_flawless f
  | json es => cases es <;> simp [Piped.tree, extractions_flawless]
  | logfmt xs es =>
    simp [Piped.tree, extractions_flawless, flags_flawless, logfmtKind_ne_error]
  | labelFormat f fs => simp [Piped.tree, hf]
  | drop c cs => simp [Piped.tree, hd]
  | keep c cs => simp [Piped.tree, hk]
  | _ => simp [Piped.tree]

theorem lineTrees_flawless (ts : List LineTest) : AllFlawless (Stage.lineTrees ts) := by
  have hm : ∀ us : List LineTest, AllFlawless (us.map LineTest.tree) := by
    intro us
    induction us with
    | nil => simp
    | cons u us ih => simp [lineTest_flawless, ih]
  cases ts with
  | nil => simp [Stage.lineTrees]
  | cons t ts => simp [Stage.lineTrees, lineTest_flawless, hm ts]

theorem stages_flawless (ss : List Stage) : AllFlawless (Stage.trees ss) := by
  have hp : ∀ p, (Stage.pipedTree p).Flawless := fun p => by
    simp (disch := decide) [Stage.pipedTree, piped_flawless]
  have hb : ∀ bs : List (Piped × List LineTest),
      AllFlawless (bs.flatMap Stage.blockTrees) := by
    intro bs
    induction bs with
    | nil => simp
    | cons b bs ih =>
      rw [List.flatMap_cons, allFlawless_append, Stage.blockTrees, allFlawless_cons]
      exact ⟨⟨hp b.1, lineTrees_flawless b.2⟩, ih⟩
  simp [Stage.trees, lineTrees_flawless, hb]

theorem sentence_flawless (s : Sentence) : s.tree.Flawless := by
  have hl : (ofToken (mark .lBrace)).Flawless := flawless_mark (by decide)
  have he : AllFlawless ((s.commas ++ [mark .rBrace]).map ofToken) :=
    allFlawless_ofToken (by simp (disch := decide))
  have hm : AllFlawless (Sentence.matchersTrees s.matchers) := by
    cases s.matchers with
    | nil => simp [Sentence.matchersTrees]
    | cons m ms =>
      simp [Sentence.matchersTrees, allFlawless_commas matching_flawless (m :: ms)]
  have hp : AllFlawless (Sentence.pipelineTrees s.stages) := by
    cases s.stages with
    | nil => simp [Sentence.pipelineTrees]
    | cons t ss => simp [Sentence.pipelineTrees, stages_flawless (t :: ss)]
  simp only [Sentence.tree, Sentence.selectorTree, flawless_node, allFlawless_cons,
    allFlawless_append, allFlawless_nil, and_true]
  exact ⟨by decide, by decide, by decide, ⟨by decide, hl, hm, he⟩, hp⟩

end Tree

end LogQuery
