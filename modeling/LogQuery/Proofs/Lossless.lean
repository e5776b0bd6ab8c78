import LogQuery.Element
import LogQuery.Proofs.Recording.Expr
import LogQuery.Proofs.Token.Lossless
import LogQuery.Proofs.Tree.Build
import LogQuery.Proofs.Tree.Strip

/-! The tree of a query, built from the events that are recorded for it, holds every token of the
query, and with them every character. -/
namespace LogQuery

variable {query : Text} {t l : Token} {w : Keyword}

theorem parse_reads (query : Text) :
    List.Forall₂ Token.ReadAs (Token.lex query) (parse query).leaves :=
  Tree.withTrivia_reads (Grammar.queryTree_reads Grammar.maxLevels _)

theorem parse_text (query : Text) : (parse query).text = query := by
  rw [Tree.text_leaves, Tree.text_of_reads (parse_reads query), Token.lex_text]

theorem parse_root (query : Text) : ∃ cs, parse query = .node .logQl cs := ⟨_, rfl⟩

/-- Without its blanks and comments, the tree of a query depends on its significant tokens only. -/
theorem parse_strip (query : Text) :
    (parse query).strip =
      Grammar.queryTree Grammar.maxLevels (Token.significant (Token.lex query)) :=
  Tree.strip_withTrivia (Grammar.queryTree_reads Grammar.maxLevels _)

/-- The events recorded for the significant tokens, and all tokens, build the tree of the query. -/
theorem parse_built (query : Text) :
    Tree.ofEvents? (Token.lex query)
        (Recorder.ofTokens (Token.significant (Token.lex query))).finish.events =
      some (parse query) := by
  have h := Recorder.recorded_finish (.ofTokens (Token.significant (Token.lex query)))
  have he := h.events
  rw [Grammar.node, Grammar.nodeBy, Tree.eventsAtAll_one] at he
  rw [he]
  exact Tree.ofEvents_withTrivia (Tree.ahead_of_kind (by decide) _)
    (Grammar.queryTree_reads Grammar.maxLevels _)

/-- No token is lexed as a keyword: where a keyword stands, an identifier spells it. -/
theorem readAs_keyword (ht : t ∈ Token.lex query) (h : t.ReadAs l) (hw : l.kind = .keyword w) :
    l.text = w.text := by
  obtain ⟨hx, hk | ⟨v, hv, hk⟩⟩ := h
  · have := Token.lex_kind ht
    rw [← hk, hw] at this
    simp [Token.scanKinds] at this
  · obtain rfl : v = w := by simpa [hk] using hw
    simp only [Token.spells, Bool.and_eq_true, decide_eq_true_eq] at hv
    rw [hx, hv.2]

theorem parse_keyword (hl : l ∈ (parse query).leaves) (hw : l.kind = .keyword w) :
    l.text = w.text := by
  obtain ⟨i, hi, rfl⟩ := List.getElem_of_mem hl
  have hr := parse_reads query
  have hi' : i < (Token.lex query).length := hr.length_eq ▸ hi
  exact readAs_keyword (List.getElem_mem hi') (List.forall₂_iff_get.mp hr |>.2 i hi' hi) hw

/-- A query is cut into tokens that spell it, none of them empty. The leaves of the tree that is
built from its events are these tokens in their order, each under its own kind or, if it is an
identifier, under the keyword that it spells. The root covers the query from its first byte to its
last. -/
theorem parse_lossless (query : Text) :
    Tree.ofEvents? (Token.lex query)
          (Recorder.ofTokens (Token.significant (Token.lex query))).finish.events =
        some (parse query) ∧
      (Token.lex query).flatMap Token.text = query ∧
      (∀ t ∈ Token.lex query, t.text ≠ []) ∧
      List.Forall₂ Token.ReadAs (Token.lex query) (parse query).leaves ∧
      (∀ l ∈ (parse query).leaves, ∀ w : Keyword, l.kind = .keyword w → l.text = w.text) ∧
      (parse query).kind = .logQl ∧
      (rootElement query).span = ⟨0, query.bytes⟩ ∧
      (parse query).text = query := by
  refine ⟨parse_built query, Token.lex_text query, fun t ht => Token.lex_text_ne_nil ht,
    parse_reads query, fun l hl w hw => parse_keyword hl hw, rfl, ?_, parse_text query⟩
  obtain ⟨cs, hcs⟩ := parse_root query
  have hb : Tree.bytesAll cs = query.bytes := by
    rw [← parse_text query, hcs, Tree.bytes_text, Tree.bytes]
  simp [rootElement, hcs, Tree.element, Tree.elementAt, Element.span, hb]

end LogQuery
