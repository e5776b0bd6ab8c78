import LogQuery.Proofs.Grammar.LogShape
import LogQuery.Proofs.Lines.Chain
import LogQuery.Proofs.Sentence.Filter
import LogQuery.Proofs.Sentence.Printed
import LogQuery.Proofs.Tree.Spine

/-! A line filter printed on its own: its tree filled from the tokens that are read back. -/
namespace LogQuery

open LogQuery.Tree (leavesAll kindsAll)

namespace Token

/-- What is printed with blanks ends on its last token. -/
theorem spaced_ends {ts : List Token} (h : ∀ t ∈ ts, t.Whole) (hn : ts ≠ []) :
    ∃ t ∈ (lex (spaced ts)).getLast?, t.isTrivia = false := by
  obtain ⟨t, ts, rfl⟩ := List.exists_cons_of_ne_nil hn
  rw [lex_spaced h]
  rcases List.eq_nil_or_concat ts with rfl | ⟨front, u, rfl⟩
  · exact ⟨t, rfl, whole_significant (h t (.head _))⟩
  · refine ⟨u, ?_, whole_significant (h u (by simp))⟩
    rw [List.concat_eq_append, List.flatMap_append, ← List.cons_append]
    exact List.getLast?_append_of_ne_nil _ (List.cons_ne_nil _ _)

end Token

namespace LineTest

variable (l : LineTest)

/-- The line filter as it is printed. -/
def text : Text := Token.spaced l.tokens

/-- The tree of the printed line filter, with the blanks in it. -/
def printed : Tree := (l.tree.fill (Token.lex l.text)).1

theorem text_significant : Token.significant (Token.lex l.text) = l.tokens :=
  Token.significant_spaced (lineTest_printed l)

theorem text_opens : (Token.lex l.text).dropWhile Token.isTrivia = Token.lex l.text := by
  have ht := Token.whole_significant (lineTest_printed l l.op.token (.head _))
  rw [text, tokens, Token.lex_spaced (lineTest_printed l),
    List.dropWhile_cons_of_neg (by simp [ht])]

theorem text_not_blank : ∀ c ∈ l.text.head?, Token.isBlank c = false := by
  rw [text, tokens, Token.spaced_cons]
  exact Token.whole_not_blank (lineTest_printed l l.op.token (.head _)) _

theorem tree_reads : List.Forall₂ Token.ReadAs l.tokens l.tree.leaves := by
  have htake : Grammar.lineFilter l.levels (l.tokens ++ []) = ⟨[l.tree], [], l.levels, none⟩ :=
    Grammar.lineFilter_takes l (Nat.le_refl _) rfl
  have hlook := Grammar.atLineFilter_tokens l []
  rw [List.append_nil] at htake hlook
  obtain ⟨taken, htaken, hreads⟩ := (Grammar.lineFilter_sound l.levels hlook).reads
  rw [htake, List.append_nil] at htaken
  rw [htake] at hreads
  simpa [htaken, leavesAll] using hreads

theorem printed_reads : List.Forall₂ Token.ReadAs (Token.lex l.text) l.printed.leaves ∧
    (l.tree.fill (Token.lex l.text)).2 = [] := by
  obtain ⟨used, hused, hreads, hrest⟩ := Tree.fill_reads l.tree l.text_opens
    (l.text_significant.trans (List.append_nil _).symm) l.tree_reads
  obtain ⟨t, ht, hk⟩ := Token.spaced_ends (lineTest_printed l) (List.cons_ne_nil _ _)
  have hdone := Tree.trivia_behind hrest (hused ▸ ht) hk
  rw [hdone, List.append_nil] at hused
  exact ⟨hused ▸ hreads, hdone⟩

theorem printed_text : l.printed.text = l.text := by
  rw [Tree.text_leaves, Tree.text_of_reads l.printed_reads.1, Token.lex_text]

theorem tree_bare : ∀ t ∈ l.tree.leaves, t.isTrivia = false :=
  Tree.leaves_significant (l.text_significant.symm ▸ l.tree_reads)

theorem printed_strip : l.printed.strip = l.tree := by
  rw [printed, Tree.strip_fill, Tree.strip_eq_self _ l.tree_bare]

/-- The kinds below a line filter. -/
def kinds : List Kind := .filter :: Grammar.lineOps ++ Tree.chainKinds

theorem values_kinds (v : LineValue) : ∀ k ∈ kindsAll v.trees, k ∈ Tree.chainKinds := by
  cases v <;> simp [LineValue.trees, kindsAll, Tree.kinds, Tree.ofToken, Kind.mark, Keyword.leaf,
    Lexeme.token, Tree.chainKinds]

theorem orTrees_kinds (vs : List LineValue) :
    ∀ k ∈ kindsAll (LineTest.orTrees vs), k ∈ Tree.chainKinds := by
  induction vs with
  | nil => simp [orTrees, kindsAll]
  | cons v vs ih =>
    intro k hk
    simp only [orTrees, kindsAll, Tree.kinds, Keyword.leaf, Grammar.kindsAll_append,
      List.append_nil, List.mem_cons, List.mem_append, List.cons_append, List.nil_append] at hk
    rcases hk with rfl | rfl | hk | hk
    · decide
    · decide
    · exact values_kinds v k hk
    · exact ih k hk

theorem children_kinds : ∀ k ∈ kindsAll l.printed.children, k ∈ kinds := by
  intro k hk
  cases ht : k.isTrivia with
  | true => rcases Tree.trivia_cases ht with rfl | rfl <;> decide
  | false =>
    have hstrip := Tree.kindsAll_stripAll _ ht hk
    have hchildren : Tree.stripAll l.printed.children = .node .filter [.ofToken l.op.token] ::
        (l.first.trees ++ orTrees l.more) := (Tree.node.inj l.printed_strip).2
    rw [hchildren] at hstrip
    simp only [kindsAll, Tree.kinds, Tree.ofToken, Grammar.kindsAll_append, List.append_nil,
      List.mem_cons, List.mem_append, List.not_mem_nil, or_false] at hstrip
    simp only [kinds, List.mem_cons, List.mem_append, List.cons_append]
    rcases hstrip with (rfl | rfl) | hv | ho
    · exact Or.inl rfl
    · exact Or.inr (Or.inl l.op.property)
    · exact Or.inr (Or.inr (values_kinds _ k hv))
    · exact Or.inr (Or.inr (orTrees_kinds _ k ho))

end LineTest

end LogQuery
