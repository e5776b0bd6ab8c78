import LogQuery.Proofs.Sentence
import LogQuery.Proofs.Text.Escape

/-! Texts between double quotes, with a backslash in front of the backslashes in them, and of the
quotes if there are any. -/
namespace LogQuery

/-- The text between double quotes, with some characters escaped. -/
def quotedText (marks : List Char) (s : Text) : Text := '"' :: (Text.escaped marks s ++ ['"'])

namespace Token

variable {marks : List Char} {s : Text}

/-- The first quote that is not escaped is the last one. -/
theorem scanQuoted_escaped (hb : '\\' ∈ marks) (hn : '\n' ∉ marks) (hq : '"' ∈ s → '"' ∈ marks)
    (rest : Text) :
    scanQuoted (Text.escaped marks s ++ '"' :: rest) =
      ⟨.string, (Text.escaped marks s).length + 1⟩ := by
  induction s with
  | nil => rfl
  | cons c s ih =>
    have hmore := ih fun h => hq (.tail c h)
    by_cases hc : c ∈ marks
    · have hline : c ≠ '\n' := fun h => hn (h ▸ hc)
      rw [Text.escaped_mark hc, List.cons_append, List.cons_append, scanQuoted.eq_5 _ _ hline,
        hmore]
      exact congrArg (Scan.mk .string) (by simp only [List.length_cons]; omega)
    · have hback : c ≠ '\\' := fun h => hc (h ▸ hb)
      have hquote : c ≠ '"' := fun h => hc (h ▸ hq (h ▸ .head _))
      rw [Text.escaped_plain hc, List.cons_append,
        scanQuoted.eq_6 _ _ hquote (fun h _ => hback h) (fun _ h _ => hback h)
          (fun _ _ h _ => hback h), hmore]
      exact congrArg (Scan.mk .string) (by simp only [List.length_cons]; omega)

theorem lex_quoted (hb : '\\' ∈ marks) (hn : '\n' ∉ marks) (hq : '"' ∈ s → '"' ∈ marks) :
    lex (quotedText marks s) = [⟨.string, quotedText marks s⟩] := by
  have hs : scan '"' (Text.escaped marks s ++ ['"']) =
      ⟨.string, (Text.escaped marks s).length + 1⟩ := scanQuoted_escaped hb hn hq []
  have hl : (Text.escaped marks s ++ ['"']).length = (Text.escaped marks s).length + 1 := by simp
  rw [quotedText, lex_cons, hs, ← hl, List.drop_length, List.take_length]
  rfl

end Token

end LogQuery
