import LogQuery.Proofs.Sentence

/-! What is meant is printed in tokens that are read back one by one. -/
namespace LogQuery

open Kind (mark)
open Grammar (matcherOps comparisonOps unitKinds lineOps)

variable {k : Kind} {ts us : List Token} {w : Keyword}

def signs : List Kind :=
  [.lBrace, .rBrace, .lParen, .rParen, .comma, .eq, .neq, .re, .nre, .npa, .eql, .gtr, .gte, .lss,
    .lte, .pipe, .pipeExact, .pipeMatch, .pipePattern]

@[simp] theorem mark_whole (h : k ∈ signs) : (mark k).Whole := by
  have hl : ∀ k ∈ signs, Token.lex (mark k).text = [mark k] := by decide +kernel
  have hc : ∀ k ∈ signs, k ∉ Token.openKinds := by decide
  exact ⟨hl k h, hc k h⟩

@[simp] theorem sign_whole {ks : List Kind} (s : Sign ks) (h : ∀ k ∈ ks, k ∈ signs) :
    s.token.Whole := mark_whole (h s.val s.property)

@[simp] theorem word_whole (h : w ∈ Keyword.clauses) : w.token.Whole := by
  have hl : ∀ w ∈ Keyword.clauses, Token.lex w.token.text = [w.token] := by decide +kernel
  exact ⟨hl w h, (by decide : Kind.identifier ∉ Token.openKinds)⟩

@[simp] theorem identifier_whole (x : Lexeme .identifier) : x.token.Whole :=
  ⟨x.lexes, (by decide : Kind.identifier ∉ Token.openKinds)⟩

@[simp] theorem string_whole (x : Lexeme .string) : x.token.Whole :=
  ⟨x.lexes, (by decide : Kind.string ∉ Token.openKinds)⟩

@[simp] theorem flag_whole (x : Lexeme .parserFlag) : x.token.Whole :=
  ⟨x.lexes, (by decide : Kind.parserFlag ∉ Token.openKinds)⟩

theorem unit_whole {u : Sign unitKinds} (x : Lexeme u.val) : x.token.Whole :=
  ⟨x.lexes, (by decide : ∀ k ∈ unitKinds, k ∉ Token.openKinds) u.val u.property⟩

theorem sort_whole {s : Sign [.identifier, .string]} (x : Lexeme s.val) : x.token.Whole :=
  ⟨x.lexes, (by decide : ∀ k ∈ [Kind.identifier, .string], k ∉ Token.openKinds) s.val s.property⟩

/-- Tokens that are read back one by one. -/
def Printed (ts : List Token) : Prop := ∀ t ∈ ts, t.Whole

@[simp] theorem printed_nil : Printed [] := by simp [Printed]

@[simp] theorem printed_cons {t : Token} : Printed (t :: ts) ↔ t.Whole ∧ Printed ts := by
  simp [Printed]

@[simp] theorem printed_append : Printed (ts ++ us) ↔ Printed ts ∧ Printed us := by
  simp [Printed, or_imp, forall_and]

theorem printed_flatMap {α : Type} {f : α → List Token} (h : ∀ x, Printed (f x)) (xs : List α) :
    Printed (xs.flatMap f) := by
  induction xs with
  | nil => simp
  | cons x xs ih => simp [h x, ih]

theorem printed_commas {α : Type} {f : α → List Token} (h : ∀ x, Printed (f x)) (xs : List α) :
    Printed (commaTokens f xs) := by
  cases xs with
  | nil => simp (disch := decide) [commaTokens]
  | cons x xs =>
    have hc : ∀ y, Printed (mark .comma :: f y) := fun y => by simp (disch := decide) [h y]
    simp (disch := decide) [commaTokens, h x, printed_flatMap hc]

@[simp] theorem matching_printed (m : Matching) : Printed m.tokens := by
  simp (disch := decide) [Matching.tokens]

@[simp] theorem lineValue_printed (v : LineValue) : Printed v.tokens := by
  cases v <;> simp (disch := decide) [LineValue.tokens]

@[simp] theorem lineTest_printed (t : LineTest) : Printed t.tokens := by
  have hv : ∀ v : LineValue, Printed (Keyword.or.token :: v.tokens) := fun v => by
    simp (disch := decide)
  simp (disch := decide) [LineTest.tokens, LineTest.orTokens, printed_flatMap hv]

@[simp] theorem labelTest_printed (t : LabelTest) : Printed t.tokens := by
  cases t <;> simp (disch := decide) [LabelTest.tokens, unit_whole]

@[simp] theorem joint_printed (j : Joint) : Printed j.tokens := by
  cases j <;> simp (disch := decide) [Joint.tokens]

mutual

theorem operand_printed : (o : LabelOperand) → Printed o.tokens
  | .test t => by simp (disch := decide) [LabelOperand.tokens]
  | .group f => by simp (disch := decide) [LabelOperand.tokens, disjunction_printed f]

theorem conjunction_printed : (c : LabelConjunction) → Printed c.tokens
  | .one o => by simp (disch := decide) [LabelConjunction.tokens, operand_printed o]
  | .also c j o => by
    have hc := conjunction_printed c
    simp (disch := decide) [LabelConjunction.tokens, hc, operand_printed o]

theorem disjunction_printed : (f : LabelDisjunction) → Printed f.tokens
  | .one c => by simp (disch := decide) [LabelDisjunction.tokens, conjunction_printed c]
  | .orElse f c => by
    simp (disch := decide) [LabelDisjunction.tokens, disjunction_printed f, conjunction_printed c]

end

theorem extraction_printed (e : Extraction) : Printed e.tokens := by
  obtain ⟨x, y⟩ := e
  cases y <;> simp (disch := decide) [Extraction.tokens]

theorem formatting_printed (f : Formatting) : Printed f.tokens := by
  simp (disch := decide) [Formatting.tokens, sort_whole]

theorem choice_printed (c : Choice) : Printed c.tokens := by
  cases c <;> simp (disch := decide) [Choice.tokens]

theorem flags_printed (xs : List (Lexeme .parserFlag)) : Printed (xs.map Lexeme.token) := by
  induction xs with
  | nil => simp
  | cons x xs ih => simp (disch := decide) [ih]

@[simp] theorem piped_printed (p : Piped) : Printed p.tokens := by
  cases p <;> simp (disch := decide) [Piped.tokens, disjunction_printed, flags_printed,
    printed_commas extraction_printed, printed_commas formatting_printed,
    printed_commas choice_printed]

theorem stage_printed (s : Stage) : Printed s.tokens := by
  cases s <;> simp (disch := decide) [Stage.tokens]

@[simp] theorem commas_printed (s : Sentence) : Printed s.commas := by
  rw [Sentence.commas]
  split <;> simp (disch := decide)

theorem sentence_printed (s : Sentence) : Printed s.tokens := by
  simp (disch := decide) [Sentence.tokens, Sentence.selectorTokens, printed_commas matching_printed,
    printed_flatMap stage_printed]

end LogQuery
