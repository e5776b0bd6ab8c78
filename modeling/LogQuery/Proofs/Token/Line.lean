import LogQuery.Proofs.Token.Sign

/-! A line end behind a text. It ends every token but blanks, which it becomes a part of, so that
what is on the next line is read as if it were alone. -/
namespace LogQuery.Token

variable {c : Char} {cs rest : Text} {t : Token} {ts us : List Token}

/-- The tokens of a text with a line end behind it, from the tokens of the text. -/
def endLine : List Token → List Token
  | [] => [⟨.whitespace, ['\n']⟩]
  | [t] =>
    if t.kind = .whitespace then [⟨.whitespace, t.text ++ ['\n']⟩]
    else [t, ⟨.whitespace, ['\n']⟩]
  | t :: u :: ts => t :: endLine (u :: ts)

theorem endLine_cons (h : t.kind = .whitespace → ts ≠ []) :
    endLine (t :: ts) = t :: endLine ts := by
  cases ts with
  | nil => exact if_neg fun hk => h hk rfl
  | cons u ts => rfl

theorem endLine_append (h : ∀ t ∈ ts.getLast?, t.isTrivia = false) (us : List Token) :
    endLine (ts ++ us) = ts ++ endLine us := by
  induction ts with
  | nil => rfl
  | cons t ts ih =>
    have hts : ∀ u ∈ ts.getLast?, u.isTrivia = false := by
      intro u hu
      exact h u (by rw [List.getLast?_cons, hu]; rfl)
    rw [List.cons_append, List.cons_append, endLine_cons, ih hts]
    intro hk hnil
    obtain rfl := (List.append_eq_nil_iff.mp hnil).1
    have ht := h t rfl
    rw [isTrivia, hk] at ht
    cases ht

theorem endLine_trivia (h : ∀ t ∈ ts, t.isTrivia = true) : ∀ t ∈ endLine ts, t.isTrivia = true := by
  induction ts with
  | nil => simp [endLine, isTrivia, Kind.isTrivia]
  | cons t ts ih =>
    by_cases hs : t.kind = .whitespace → ts ≠ []
    · rw [endLine_cons hs]
      exact List.forall_mem_cons.mpr ⟨h t (.head _), ih fun u hu => h u (.tail t hu)⟩
    · obtain ⟨hk, rfl⟩ : t.kind = .whitespace ∧ ts = [] := by simpa using hs
      simp [endLine, hk, isTrivia, Kind.isTrivia]

theorem spelled_endLine (ts : List Token) : spelled (endLine ts) = spelled ts ++ ['\n'] := by
  induction ts with
  | nil => rfl
  | cons t ts ih =>
    by_cases hs : t.kind = .whitespace → ts ≠ []
    · rw [endLine_cons hs, spelled, spelled, List.flatMap_cons, List.flatMap_cons,
        List.append_assoc]
      exact congrArg _ ih
    · obtain ⟨hk, rfl⟩ : t.kind = .whitespace ∧ ts = [] := by simpa using hs
      simp [endLine, hk, spelled]

theorem significant_endLine (ts : List Token) : significant (endLine ts) = significant ts := by
  induction ts with
  | nil => rfl
  | cons t ts ih =>
    by_cases hs : t.kind = .whitespace → ts ≠ []
    · simp only [endLine_cons hs, significant, List.filter_cons] at ih ⊢
      rw [ih]
    · obtain ⟨hk, rfl⟩ : t.kind = .whitespace ∧ ts = [] := by simpa using hs
      simp [endLine, hk, significant, isTrivia, Kind.isTrivia]

/-- Blanks and comments are told by what they begin with. -/
theorem scan_passed (h : (scan c cs).kind.isTrivia = true) : isBlank c = true ∨ c = '#' := by
  by_contra hc
  rw [not_or] at hc
  unfold scan at h
  split_ifs at h with hb hn hd
  · exact hc.1 hb
  · cases h
  · have hk := scanNumber_kind (c :: cs)
    have hnone : ∀ k ∈ [Kind.number, .bytes, .duration, .unknown], k.isTrivia = false := by decide
    rw [hnone _ hk] at h
    cases h
  · have hnone : ∀ k ∈ [Kind.string, .unknown], k.isTrivia = false := by decide
    split at h
    case h_1 => exact hc.2 rfl
    case h_2 =>
      rw [hnone _ (scanQuoted_kind cs)] at h
      cases h
    case h_3 =>
      rw [hnone _ (scanRaw_kind cs)] at h
      cases h
    case h_4 => split at h <;> cases h
    all_goals cases h

/-- A token is the same with a line end behind the text, unless there are blanks up to the end. -/
theorem scan_line (hk : (scan c cs).kind ≠ .unknown)
    (hl : (scan c cs).kind = .whitespace → (scan c cs).more < cs.length) (rest : Text) :
    scan c (cs ++ '\n' :: rest) = scan c cs := by
  by_cases hb : isBlank c = true
  · rw [scan_blank hb] at hl ⊢
    rw [scan_blank hb, run_inside (hl rfl)]
  by_cases hc : c = '#'
  · subst hc
    have hcomment : ∀ cs, scan '#' cs = ⟨.comment, run (· ≠ '\n') cs⟩ := fun _ => rfl
    rw [hcomment, hcomment, run_append (by decide)]
  · refine scan_append rfl (fun hopen => ?_) rest
    simp only [openKinds, List.mem_cons, List.not_mem_nil, or_false, hk] at hopen
    have htrivia : (scan c cs).kind.isTrivia = true := by
      rcases hopen with h | h <;> rw [h] <;> rfl
    exact (scan_passed htrivia).elim hb hc

/-- Blanks up to the end of a text. -/
theorem scan_blanks (h : scan c cs = ⟨.whitespace, cs.length⟩) :
    isBlank c = true ∧ ∀ b ∈ cs, isBlank b = true := by
  have hb : isBlank c = true := by
    rcases scan_passed (by rw [h]; rfl) with hb | rfl
    · exact hb
    · cases h
  rw [scan_blank hb] at h
  exact ⟨hb, run_whole (Scan.mk.inj h).2⟩

theorem lexed_ne (h : Lexed ts) (hn : ts ≠ []) : spelled ts ≠ [] := by
  intro hs
  rw [Lexed, hs] at h
  exact hn h.symm

/-- What is on the next line is read as if it were alone. -/
theorem lex_line (h : Lexed ts) (hts : ∀ t ∈ ts, t.kind ≠ .unknown)
    (hr : ∀ c ∈ rest.head?, isBlank c = false) :
    lex (spelled ts ++ '\n' :: rest) = endLine ts ++ lex rest := by
  induction ts with
  | nil => exact @lex_blanks '\n' [] rest rfl (by simp) hr
  | cons t ts ih =>
    obtain ⟨c, cs, hx, hscan, hmore⟩ := lexed_cons.mp h
    have htext : spelled (t :: ts) = c :: (cs ++ spelled ts) := by
      rw [spelled, List.flatMap_cons, hx]
      rfl
    by_cases hs : t.kind = .whitespace → ts ≠ []
    · have hline : scan c (cs ++ spelled ts ++ '\n' :: rest) = ⟨t.kind, cs.length⟩ := by
        rw [← hscan]
        refine scan_line (by rw [hscan]; exact hts t (.head _)) (fun hk => ?_) rest
        rw [hscan] at hk ⊢
        rw [List.length_append]
        exact Nat.lt_add_of_pos_right (List.length_pos_iff.mpr (lexed_ne hmore (hs hk)))
      rw [htext, List.cons_append, lex_cons, hline, endLine_cons hs, List.append_assoc,
        List.take_left, List.drop_left, ih hmore fun u hu => hts u (.tail t hu), ← hx]
      rfl
    · obtain ⟨hk, rfl⟩ : t.kind = .whitespace ∧ ts = [] := by simpa using hs
      obtain ⟨hc, hcs⟩ := scan_blanks (by rw [← hk]; simpa [spelled] using hscan)
      have hall : ∀ b ∈ cs ++ ['\n'], isBlank b = true := by
        simpa [or_imp, forall_and, isBlank] using hcs
      have hlex := lex_blanks hc hall hr
      simpa [spelled, hx, endLine, hk] using hlex

end LogQuery.Token
