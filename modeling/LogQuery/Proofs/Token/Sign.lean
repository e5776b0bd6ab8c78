import LogQuery.Proofs.Sentence
import LogQuery.Proofs.Token.Cut

/-! Signs are spelled in one way only. A closing brace is such a sign, and what is read ahead of one
does not depend on what follows it. -/
namespace LogQuery.Token

variable {c : Char} {cs : Text} {p : Char → Bool} {t : Token} {ts : List Token} {k : Kind}

/-- The signs that queries are written with. -/
def signKinds : List Kind :=
  [.lBrace, .rBrace, .lParen, .rParen, .comma, .eq, .neq, .re, .nre, .npa, .eql, .gtr, .gte, .lss,
    .lte, .pipe, .pipeExact, .pipeMatch, .pipePattern]

theorem scan_sign (h : (scan c cs).kind ∈ signKinds) :
    c :: cs.take (scan c cs).more = (scan c cs).kind.symbol.toList := by
  unfold scan at h ⊢
  split_ifs at h ⊢ with hb hn hd
  · simp [signKinds] at h
  · simp [signKinds] at h
  · have hk := scanNumber_kind (c :: cs)
    have hnone : ∀ k ∈ [Kind.number, .bytes, .duration, .unknown], k ∉ signKinds := by decide
    exact absurd h (hnone _ hk)
  · have hnone : ∀ k ∈ [Kind.string, .unknown], k ∉ signKinds := by decide
    split at h
    case h_2 => exact absurd h (hnone _ (scanQuoted_kind cs))
    case h_3 => exact absurd h (hnone _ (scanRaw_kind cs))
    case h_4 => split at h <;> simp [signKinds] at h
    all_goals first | rfl | simp [signKinds] at h

theorem sign_text (h : t ∈ lex cs) (hk : t.kind ∈ signKinds) : t.text = t.kind.symbol.toList := by
  obtain ⟨c, ds, rfl⟩ := mem_lexAfter h
  exact scan_sign hk

/-- A run that ends inside a text ends there whatever follows. -/
theorem run_inside (h : run p cs < cs.length) (rest : Text) : run p (cs ++ rest) = run p cs := by
  have hne : (cs.takeWhile p).length ≠ cs.length := Nat.ne_of_lt h
  rw [run, List.takeWhile_append, if_neg hne, run]

/-- A flag does not reach into a closing brace. -/
theorem scan_dash_le (cs rest : Text) : (scan '-' (cs ++ '}' :: rest)).more ≤ cs.length := by
  have hflag : isFlagPart '}' = false := rfl
  rw [scan_dash]
  rcases cs with _ | ⟨a, _ | ⟨d, ds⟩⟩
  · exact Nat.le_refl _
  · split
    · next h =>
      obtain ⟨-, h⟩ := List.cons.inj h
      obtain ⟨rfl, -⟩ := List.cons.inj h
      exact Nat.zero_le _
    · exact Nat.zero_le _
  · split
    · next h =>
      obtain ⟨-, h⟩ := List.cons.inj h
      obtain ⟨rfl, rfl⟩ := List.cons.inj h
      have hrun := run_le isFlagPart ds
      rw [List.append_eq, run_append hflag]
      split
      · simp only [List.length_cons]
        omega
      · exact Nat.zero_le _
    · exact Nat.zero_le _

/-- A token that ends ahead of a closing brace ends there whatever follows the brace. -/
theorem scan_closed_le (hk : (scan c (cs ++ ['}'])).kind ≠ .unknown)
    (hl : (scan c (cs ++ ['}'])).more ≤ cs.length) (rest : Text) :
    (scan c (cs ++ '}' :: rest)).more ≤ cs.length + 1 := by
  by_cases hdash : c = '-'
  · subst hdash
    exact (scan_dash_le cs rest).trans (Nat.le_succ _)
  have hblank : isBlank '}' = false := rfl
  have hpart : isNamePart '}' = false := rfl
  have happart : isApart '}' = true := rfl
  unfold scan at hk hl ⊢
  split_ifs at hk hl ⊢ with hb hn hd
  · rw [run_append hblank]
    exact (run_le _ _).trans (Nat.le_succ _)
  · rw [run_append hpart]
    exact (run_le _ _).trans (Nat.le_succ _)
  · have hnumber := scanNumber_le (c :: cs)
    rw [← List.cons_append, scanNumber_append happart]
    rw [List.length_cons] at hnumber
    simp only
    omega
  · have hlen : (cs ++ ['}']).length = cs.length + 1 := List.length_append
    rw [List.append_cons]
    split
    · have hrun : run (· ≠ '\n') (cs ++ ['}']) ≤ cs.length := hl
      rw [run_inside (by rw [hlen]; exact Nat.lt_succ_of_le hrun)]
      exact hrun.trans (Nat.le_succ _)
    · rw [scanQuoted_append hk, ← hlen]
      exact scanQuoted_le _
    · rw [scanRaw_append hk, ← hlen]
      exact scanRaw_le _
    · exact absurd rfl hdash
    all_goals simp

/-- A token that ends ahead of a closing brace is the same whatever follows the brace. -/
theorem scan_closed (hk : (scan c (cs ++ ['}'])).kind ≠ .unknown)
    (hl : (scan c (cs ++ ['}'])).more ≤ cs.length) (rest : Text) :
    scan c (cs ++ '}' :: rest) = scan c (cs ++ ['}']) := by
  have hle := scan_closed_le hk hl rest
  have hlen : (cs ++ ['}']).length = cs.length + 1 := List.length_append
  rw [List.append_cons, ← hlen] at hle
  have hcut := scan_cut hle
  rw [List.append_cons]
  generalize scan c (cs ++ ['}'] ++ rest) = long at hcut
  generalize scan c (cs ++ ['}']) = short at hcut hl
  cases hcut with
  | same => rfl
  | minute hs hr =>
    -- The brace would be part of the number.
    simp only [hlen] at hl
    omega

/-- Tokens ahead of a closing brace are the same whatever follows the brace. -/
theorem lex_closed (h : Lexed (ts ++ [Kind.mark .rBrace])) (hts : ∀ t ∈ ts, t.kind ≠ .unknown)
    (rest : Text) : lex (spelled ts ++ '}' :: rest) = ts ++ Kind.mark .rBrace :: lex rest := by
  induction ts with
  | nil => exact lex_cons '}' rest
  | cons t ts ih =>
    obtain ⟨c, cs, hx, hscan, hmore⟩ := lexed_cons.mp (List.cons_append ▸ h)
    have hclosed : spelled (ts ++ [Kind.mark .rBrace]) = spelled ts ++ ['}'] :=
      spelled_append ts _
    rw [hclosed, ← List.append_assoc] at hscan
    have hsame : scan c (cs ++ spelled ts ++ '}' :: rest) = ⟨t.kind, cs.length⟩ := by
      rw [← hscan]
      refine scan_closed ?_ ?_ rest
      · rw [hscan]
        exact hts t (.head _)
      · rw [hscan, List.length_append]
        exact Nat.le_add_right _ _
    have hspelled : spelled (t :: ts) ++ '}' :: rest = c :: (cs ++ spelled ts ++ '}' :: rest) := by
      rw [spelled, List.flatMap_cons, hx]
      rfl
    rw [hspelled, lex_cons, hsame, List.append_assoc, List.drop_left, List.take_left, ← hx,
      ih hmore fun u hu => hts u (.tail t hu)]
    rfl

end LogQuery.Token
