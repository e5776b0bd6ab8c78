import LogQuery.Proofs.Token.Line
import LogQuery.Proofs.Token.Pattern

/-! Tokens written down with blanks around them. Lexing gives back the same tokens and blanks. -/
namespace LogQuery.Token

variable {w : Text} {k : Kind}

/-- A token with a text of the pattern of its kind. It is no blank, no comment and not unknown. -/
structure Declared where
  token : Token
  significant : token.isTrivia = false
  known : token.kind ≠ .unknown
  matched : token.text ∈ pattern token.kind

/-- One or more blanks. -/
structure Blanks where
  text : Text
  matched : text ∈ pattern .whitespace

def Blanks.token (b : Blanks) : Token := ⟨.whitespace, b.text⟩

/-- Some blanks, then tokens with blanks behind each of them. -/
def written (first : Blanks) (rows : List (Declared × Blanks)) : Text :=
  first.text ++ rows.flatMap fun row => row.1.token.text ++ row.2.text

theorem takes_lexes (h : Takes k w) : lex w = [⟨k, w⟩] := by
  obtain ⟨c, cs, rfl, hs⟩ := h
  rw [lex_cons, hs, List.drop_length, List.take_length]
  rfl

theorem declared_whole (d : Declared) : d.token.Whole where
  lexes := takes_lexes (takes_pattern d.matched)
  closed := by
    have hs := d.significant
    have hk := d.known
    intro hopen
    simp only [openKinds, List.mem_cons, List.not_mem_nil, or_false] at hopen
    rcases hopen with hopen | hopen | hopen
    · simp [isTrivia, hopen, Kind.isTrivia] at hs
    · simp [isTrivia, hopen, Kind.isTrivia] at hs
    · exact hk hopen

theorem blanks_cons (b : Blanks) :
    ∃ c cs, b.text = c :: cs ∧ isBlank c = true ∧ ∀ d ∈ cs, isBlank d = true := by
  obtain ⟨c, cs, hx, hs⟩ := takes_pattern b.matched
  exact ⟨c, cs, hx, scan_blanks hs⟩

theorem blanks_atBlank (b : Blanks) (rest : Text) : AtBlank (b.text ++ rest) := by
  obtain ⟨c, cs, hx, hc, -⟩ := blanks_cons b
  intro d hd
  obtain rfl : c = d := by simpa [hx] using hd
  exact hc

/-- Blanks before something else are one token. -/
theorem lex_first (b : Blanks) {rest : Text} (h : ∀ c ∈ rest.head?, isBlank c = false) :
    lex (b.text ++ rest) = b.token :: lex rest := by
  obtain ⟨c, cs, hx, hc, hcs⟩ := blanks_cons b
  rw [Blanks.token, hx, lex_blanks hc hcs h]

/-- Tokens with texts of the patterns of their kinds are read back from the text that they are
written in, with one token for each run of blanks before, between and behind them. -/
theorem lex_written (first : Blanks) (rows : List (Declared × Blanks)) :
    lex (written first rows) =
      first.token :: rows.flatMap fun row => [row.1.token, row.2.token] := by
  induction rows generalizing first with
  | nil =>
    have h : lex (first.text ++ []) = first.token :: lex [] := lex_first first (by simp)
    rw [written, List.flatMap_nil, h]
    rfl
  | cons row rows ih =>
    obtain ⟨d, b⟩ := row
    have hwhole : d.token.Whole := declared_whole d
    have hmore : written first ((d, b) :: rows) =
        first.text ++ (d.token.text ++ written b rows) := by
      simp [written]
    have hblank : AtBlank (written b rows) := blanks_atBlank b _
    rw [hmore, lex_first first (whole_not_blank hwhole _), lex_append hwhole hblank, ih b]
    rfl

example : (lex "\r1h5.5m\t 5m\n5mb \"#\\\"\n\" != ".toList).map kind =
    [.whitespace, .duration, .whitespace, .duration, .whitespace, .bytes, .whitespace, .string,
      .whitespace, .neq, .whitespace] := by decide +kernel

end LogQuery.Token
