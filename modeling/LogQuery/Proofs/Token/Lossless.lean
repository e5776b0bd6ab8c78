import Mathlib.Data.List.Basic
import LogQuery.Token.Lexer

/-! The lexer keeps every character: its tokens hold the query in order, and none is empty. -/
namespace LogQuery.Token

variable {n : Nat} {cs : Text} {t : Token}

/-- Characters that a token already holds are passed over, and nothing else. -/
theorem lexAfter_eq_drop (n : Nat) (cs : Text) : lexAfter n cs = lexAfter 0 (cs.drop n) := by
  induction cs generalizing n with
  | nil => cases n <;> simp [lexAfter]
  | cons c cs ih =>
    cases n with
    | zero => rfl
    | succ n => simpa [lexAfter] using ih n

theorem lex_cons (c : Char) (cs : Text) :
    lex (c :: cs) =
      ⟨(scan c cs).kind, c :: cs.take (scan c cs).more⟩ :: lex (cs.drop (scan c cs).more) := by
  rw [lex, lexAfter, lexAfter_eq_drop]
  rfl

theorem lexAfter_text (n : Nat) (cs : Text) : (lexAfter n cs).flatMap text = cs.drop n := by
  induction cs generalizing n with
  | nil => cases n <;> simp [lexAfter]
  | cons c cs ih =>
    cases n with
    | zero => simp [lexAfter, ih]
    | succ n => simp [lexAfter, ih]

theorem lex_text (cs : Text) : (lex cs).flatMap text = cs := lexAfter_text 0 cs

/-- The text of some tokens. -/
def spelled (ts : List Token) : Text := ts.flatMap text

theorem spelled_append (ts us : List Token) : spelled (ts ++ us) = spelled ts ++ spelled us :=
  List.flatMap_append ..

theorem spelled_lex (cs : Text) : spelled (lex cs) = cs := lex_text cs

/-- Every token is what a scan answers at some character. -/
theorem mem_lexAfter (h : t ∈ lexAfter n cs) :
    ∃ c ds, t = ⟨(scan c ds).kind, c :: ds.take (scan c ds).more⟩ := by
  induction cs generalizing n with
  | nil => cases n <;> simp [lexAfter] at h
  | cons c cs ih =>
    cases n with
    | zero =>
      rw [lexAfter, List.mem_cons] at h
      obtain rfl | h := h
      · exact ⟨c, cs, rfl⟩
      · exact ih h
    | succ n => exact ih h

theorem lex_text_ne_nil (h : t ∈ lex cs) : t.text ≠ [] := by
  obtain ⟨c, ds, rfl⟩ := mem_lexAfter h
  exact List.cons_ne_nil _ _

/-- Every kind that a scan may answer with. Keywords and nodes are not among them. -/
def scanKinds : List Kind :=
  [.whitespace, .comment, .lBrace, .rBrace, .lParen, .rParen, .lBracket, .rBracket, .comma,
    .unknown, .identifier, .string, .number, .duration, .bytes, .parserFlag, .eq, .neq, .re, .nre,
    .npa, .eql, .gtr, .gte, .lss, .lte, .pipe, .pipeExact, .pipeMatch, .pipePattern, .add, .sub,
    .mul, .div, .mod, .pow]

theorem amounts_kind (fuel : Nat) (cs : Text) :
    (amounts fuel cs).kind ∈ [.duration, .unknown] := by
  induction fuel generalizing cs with
  | zero => simp [amounts]
  | succ fuel ih =>
    unfold amounts
    split
    · decide
    · split
      · simp
      · exact ih _

theorem scanNumber_kind (cs : Text) :
    (scanNumber cs).kind ∈ [.number, .bytes, .duration, .unknown] := by
  unfold scanNumber
  dsimp only
  split
  · simp
  · simp
  · exact .tail _ (.tail _ (amounts_kind _ _))
  · simp

theorem scanQuoted_kind (cs : Text) : (scanQuoted cs).kind ∈ [.string, .unknown] := by
  fun_induction scanQuoted cs <;> simp_all [Scan.after]

theorem scanRaw_kind (cs : Text) : (scanRaw cs).kind ∈ [.string, .unknown] := by
  fun_induction scanRaw cs <;> simp_all [Scan.after]

theorem scan_kind (c : Char) (cs : Text) : (scan c cs).kind ∈ scanKinds := by
  have hnumber : ∀ k ∈ [Kind.number, .bytes, .duration, .unknown], k ∈ scanKinds := by decide
  have hstring : ∀ k ∈ [Kind.string, .unknown], k ∈ scanKinds := by decide
  unfold scan
  split_ifs
  · simp [scanKinds]
  · simp [scanKinds]
  · exact hnumber _ (scanNumber_kind _)
  · split
    · simp [scanKinds]
    · exact hstring _ (scanQuoted_kind cs)
    · exact hstring _ (scanRaw_kind cs)
    · split <;> simp [scanKinds]
    all_goals simp [scanKinds]

theorem lex_kind (h : t ∈ lex cs) : t.kind ∈ scanKinds := by
  obtain ⟨c, ds, rfl⟩ := mem_lexAfter h
  exact scan_kind c ds

end LogQuery.Token
