import LogQuery.Proofs.Sentence

/-! Tokens that need no blank between them: names before operators, operators before raw strings,
and brackets and commas before anything. -/
namespace LogQuery

open Kind (mark)
open Grammar (matcherOps)

/-- A text that can stand between backticks. -/
structure RawText where
  text : Text
  closed : '\x60' ∉ text

def RawText.token (v : RawText) : Token := ⟨.string, '\x60' :: (v.text ++ ['\x60'])⟩

namespace Token

variable {c d : Char} {cs rest : Text} {k : Kind}

/-- Only a letter or an underscore begins a name. -/
theorem scan_name (h : (scan c cs).kind = .identifier) :
    isBlank c = false ∧ isNameStart c = true := by
  unfold scan at h
  split_ifs at h with hb hn hd
  · exact ⟨by simpa using hb, hn⟩
  · have hk := scanNumber_kind (c :: cs)
    rw [show (scanNumber (c :: cs)).kind = .identifier from h] at hk
    exact absurd hk (by decide)
  · exfalso
    split at h
    case h_2 =>
      have hk := scanQuoted_kind cs
      rw [h] at hk
      exact absurd hk (by decide)
    case h_3 =>
      have hk := scanRaw_kind cs
      rw [h] at hk
      exact absurd hk (by decide)
    case h_4 => split at h <;> cases h
    all_goals cases h

/-- A lexeme is read off its text in one scan. -/
theorem scan_lexeme (x : Lexeme k) : ∃ c cs, x.text = c :: cs ∧ scan c cs = ⟨k, cs.length⟩ := by
  obtain ⟨text, hx⟩ := x
  cases text with
  | nil => cases hx
  | cons c cs =>
    rw [lex_cons, List.cons.injEq] at hx
    obtain ⟨hc, hn⟩ := hx
    have hd := lex_text (cs.drop (scan c cs).more)
    rw [hn] at hd
    have hmore : (scan c cs).more = cs.length :=
      le_antisymm (scan_le c cs) (List.drop_eq_nil_iff.mp hd.symm)
    have hkind : (scan c cs).kind = k := congrArg Token.kind hc
    exact ⟨c, cs, rfl, by rw [← hkind, ← hmore]⟩

/-- A name ends where no part of a name follows. -/
theorem lex_name (x : Lexeme .identifier) (h : ∀ d ∈ rest.head?, isNamePart d = false) :
    lex (x.text ++ rest) = x.token :: lex rest := by
  obtain ⟨c, cs, hx, hall⟩ := scan_lexeme x
  obtain ⟨hb, hs⟩ := scan_name (congrArg Scan.kind hall)
  have hscan : ∀ us, scan c us = ⟨.identifier, run isNamePart us⟩ := by
    intro us
    simp [scan, hb, hs]
  have hrun : run isNamePart cs = cs.length := congrArg Scan.more ((hscan cs).symm.trans hall)
  have hrest : run isNamePart (cs ++ rest) = cs.length := by
    cases rest with
    | nil => rw [List.append_nil, hrun]
    | cons d rest => rw [run_append (h d rfl), hrun]
  rw [hx, List.cons_append, lex_cons, hscan, hrest, List.drop_left, List.take_left, ← hx]
  rfl

theorem scanRaw_closed (h : '\x60' ∉ cs) (rest : Text) :
    scanRaw (cs ++ '\x60' :: rest) = ⟨.string, cs.length + 1⟩ := by
  induction cs with
  | nil => rfl
  | cons c cs ih =>
    rw [List.mem_cons, not_or] at h
    have hc : c ≠ '\x60' := fun he => h.1 he.symm
    rw [List.cons_append, scanRaw.eq_3 _ _ hc, ih h.2, List.length_cons]
    exact congrArg (Scan.mk .string) (Nat.add_comm 1 _)

theorem lex_raw (v : RawText) (rest : Text) :
    lex (v.token.text ++ rest) = v.token :: lex rest := by
  have hs : scan '\x60' (v.text ++ '\x60' :: rest) = ⟨.string, v.text.length + 1⟩ :=
    scanRaw_closed v.closed rest
  have ht : v.text ++ '\x60' :: rest = (v.text ++ ['\x60']) ++ rest := by simp
  have hl : (v.text ++ ['\x60']).length = v.text.length + 1 := by simp
  rw [RawText.token, List.cons_append, ← ht, lex_cons, hs, ht, ← hl, List.drop_left,
    List.take_left]

/-- Brackets and commas never belong to a longer token. -/
theorem lex_bracket (h : k ∈ [.lBrace, .rBrace, .comma]) (rest : Text) :
    lex ((mark k).text ++ rest) = mark k :: lex rest := by
  simp only [List.mem_cons, List.not_mem_nil, or_false] at h
  rcases h with rfl | rfl | rfl <;> exact lex_cons _ _

/-- No operator begins with a part of a name or goes on with a backtick. -/
theorem lex_operator (h : k ∈ matcherOps) (v : RawText) (rest : Text) :
    (∀ d ∈ ((mark k).text ++ (v.token.text ++ rest)).head?, isNamePart d = false) ∧
      lex ((mark k).text ++ (v.token.text ++ rest)) = mark k :: lex (v.token.text ++ rest) := by
  simp only [matcherOps, List.mem_cons, List.not_mem_nil, or_false] at h
  rcases h with rfl | rfl | rfl | rfl
  all_goals
    refine ⟨?_, lex_cons _ _⟩
    intro d hd
    obtain rfl := Option.some.inj hd
    rfl

theorem lex_matching (x : Lexeme .identifier) (h : k ∈ matcherOps) (v : RawText) (rest : Text) :
    lex (x.text ++ ((mark k).text ++ (v.token.text ++ rest))) =
      x.token :: mark k :: v.token :: lex rest := by
  obtain ⟨hname, hop⟩ := lex_operator h v rest
  rw [lex_name x hname, hop, lex_raw]

end Token

/-- In its backticks a text is one string. -/
def RawText.lexeme (v : RawText) : Lexeme .string where
  text := v.token.text
  lexes := by
    have h := Token.lex_raw v []
    rwa [List.append_nil] at h

end LogQuery
