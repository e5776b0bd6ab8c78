import LogQuery.Proofs.Lossless

/-! Blanks and comments do not show in the structure of a tree. -/
namespace LogQuery

variable {q r : Text}

/-- What is recorded for the significant tokens of one query builds the tree of any other query that
has the same ones. -/
theorem parse_built_of_significant
    (h : Token.significant (Token.lex q) = Token.significant (Token.lex r)) :
    Tree.ofEvents? (Token.lex r)
        (Recorder.ofTokens (Token.significant (Token.lex q))).finish.events =
      some (parse r) := by
  rw [h]
  exact parse_built r

/-- Two queries with the same significant tokens are built from the same events, and their trees
are equal once the leaves that are blanks and comments are taken away. -/
theorem parse_same_structure
    (h : Token.significant (Token.lex q) = Token.significant (Token.lex r)) :
    (∀ s ∈ [q, r],
        Tree.ofEvents? (Token.lex s)
            (Recorder.ofTokens (Token.significant (Token.lex q))).finish.events =
          some (parse s) ∧
        (parse s).strip.leaves = Token.significant (parse s).leaves) ∧
      (parse q).strip = (parse r).strip := by
  constructor
  · intro s hs
    have hq : Token.significant (Token.lex q) = Token.significant (Token.lex s) := by
      rcases List.mem_pair.mp hs with rfl | rfl
      · rfl
      · exact h
    exact ⟨parse_built_of_significant hq, Tree.leaves_strip (parse s) rfl⟩
  · rw [parse_strip q, parse_strip r, h]

def denseText : Text := "\x7ba=,b=\"x\"\x7d|json|=\"y\"or\"z\"|".toList

def looseText : Text :=
  " \x7b a = # no value\n , b = \"x\" \x7d # then\n|  json\t|= \"y\" or \"z\" | # open".toList

/-- Both queries lack a value and a stage, at the same places. -/
theorem parse_same_structure_broken :
    Token.significant (Token.lex denseText) = Token.significant (Token.lex looseText) ∧
      (parse denseText).holds .error = true ∧
      (parse denseText).strip = (parse looseText).strip := by
  have h : Token.significant (Token.lex denseText) = Token.significant (Token.lex looseText) := by
    decide +kernel
  have he : (parse denseText).holds .error = true := by decide +kernel
  exact ⟨h, he, (parse_same_structure h).2⟩

end LogQuery
