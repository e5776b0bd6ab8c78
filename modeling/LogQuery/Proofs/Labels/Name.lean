import LogQuery.Proofs.Lines.Search
import LogQuery.Proofs.Matchers.Layout
import LogQuery.Proofs.Token.Adjacent

/-! Any name may name a label, also one that is a word of the language. A comparison of it is a
matcher in braces, and after a bar too unless the name is `unwrap`. -/
namespace LogQuery

open Kind (mark)
open Grammar (matcherOps)
open LogQuery.Tree (Within Spot leavesAll)

namespace Token

variable {gap rest : Text} {k : Kind}

/-- A string ends with its quote, whatever comes behind it. -/
theorem lex_string (x : Lexeme .string) (rest : Text) :
    lex (x.text ++ rest) = x.token :: lex rest := by
  obtain ⟨c, cs, hx, hscan⟩ := scan_lexeme x
  have hkind : (scan c cs).kind = .string := by rw [hscan]
  have hsame : scan c (cs ++ rest) = scan c cs := by
    obtain ⟨-, hq, -⟩ := scan_string hkind
    rcases List.mem_pair.mp hq with rfl | rfl
    · have hs : (scanQuoted cs).kind = .string := hkind
      exact scanQuoted_append (by simp [hs]) rest
    · have hs : (scanRaw cs).kind = .string := hkind
      exact scanRaw_append (by simp [hs]) rest
  rw [hx, List.cons_append, lex_cons, hsame, hscan, List.drop_left, List.take_left, ← hx]
  rfl

/-- What a sign of a matcher stands ahead of: a blank, or a quote. -/
def ClosesSign (rest : Text) : Prop := ∀ c ∈ rest.head?, isBlank c = true ∨ c ∈ quotes

theorem closesSign_append {bs : Text} (hb : ∀ b ∈ bs, isBlank b = true) (h : ClosesSign rest) :
    ClosesSign (bs ++ rest) := by
  cases bs with
  | nil => exact h
  | cons b bs =>
    intro c hc
    obtain rfl := Option.some.inj hc
    exact Or.inl (hb _ (.head _))

theorem closesSign_string (x : Lexeme .string) (rest : Text) : ClosesSign (x.text ++ rest) := by
  obtain ⟨c, cs, hx, hscan⟩ := scan_lexeme x
  have hkind : (scan c cs).kind = .string := by rw [hscan]
  obtain ⟨-, hq, -⟩ := scan_string hkind
  intro d hd
  rw [hx] at hd
  obtain rfl := Option.some.inj hd
  exact Or.inr hq

theorem lex_sign (hk : k ∈ matcherOps) (hr : ClosesSign rest) :
    lex ((mark k).text ++ rest) = mark k :: lex rest := by
  simp only [matcherOps, List.mem_cons, List.not_mem_nil, or_false] at hk
  rcases hk with rfl | rfl | rfl | rfl
  · -- The one sign that others begin with.
    have hscan : scan '=' rest = ⟨.eq, 0⟩ := by
      rcases rest with _ | ⟨c, rest⟩
      · rfl
      · have hc : c ≠ '~' ∧ c ≠ '=' := by
          constructor <;>
          · rintro rfl
            have h := hr _ rfl
            revert h
            decide
        simp [scan, isBlank, isNameStart, hc]
    exact (lex_cons '=' rest).trans (by rw [hscan]; rfl)
  all_goals exact lex_cons _ _

theorem sign_name (hk : k ∈ matcherOps) (rest : Text) :
    ∀ d ∈ ((mark k).text ++ rest).head?, isBlank d = false ∧ isNamePart d = false := by
  simp only [matcherOps, List.mem_cons, List.not_mem_nil, or_false] at hk
  rcases hk with rfl | rfl | rfl | rfl
  all_goals
    intro d hd
    obtain rfl := Option.some.inj hd
    exact ⟨rfl, rfl⟩

/-- A name, a sign and a string are read one by one, with or without blanks between them. -/
theorem lex_comparison (m : Matching) (hgap : ∀ b ∈ gap, isBlank b = true) (rest : Text) :
    lex (m.name.text ++ (gap ++ (m.op.token.text ++ (gap ++ (m.value.text ++ rest))))) =
      m.name.token ::
        (blanks gap ++ (m.op.token :: (blanks gap ++ (m.value.token :: lex rest)))) := by
  have hop := m.op.property
  have hsign : ∀ d ∈ (m.op.token.text ++ (gap ++ (m.value.text ++ rest))).head?,
      isBlank d = false ∧ isNamePart d = false := sign_name hop _
  have hname : ∀ d ∈ (gap ++ (m.op.token.text ++ (gap ++ (m.value.text ++ rest)))).head?,
      isNamePart d = false := by
    intro d hd
    cases gap with
    | nil => exact (hsign d hd).2
    | cons b bs =>
      obtain rfl := Option.some.inj hd
      exact isNamePart_blank (hgap _ (.head _))
  have hstring : ∀ d ∈ (m.value.text ++ rest).head?, isBlank d = false :=
    whole_not_blank (string_whole m.value) rest
  have hsign : ∀ d ∈ (m.op.token.text ++ (gap ++ (m.value.text ++ rest))).head?,
      isBlank d = false := fun d hd => (hsign d hd).1
  rw [lex_name m.name hname, lex_between hgap hsign, ← lex_string, ← lex_between hgap hstring]
  congr 2
  exact lex_sign hop (closesSign_append hgap (closesSign_string m.value rest))

end Token

namespace Matching

/-- A comparison with some blanks around its sign. -/
def text (m : Matching) (gap : Text) : Text :=
  m.name.text ++ (gap ++ (m.op.token.text ++ (gap ++ m.value.text)))

/-- The comparison alone in a selector. -/
def braced (m : Matching) (gap : Text) : Text := (mark .lBrace).text ++ (m.text gap ++ ['}'])

def barText : Text := " | ".toList

/-- The comparison as a stage behind a selector. -/
def piped (m : Matching) (gap : Text) : Text := shortSelector ++ (barText ++ m.text gap)

def bracedSentence (m : Matching) : Sentence := ⟨[m], false, []⟩

def pipedSentence (m : Matching) : Sentence where
  matchers := plainSelector.matchers
  comma := plainSelector.comma
  stages := [.piped (.label (.one (.one (.test (.matching m)))))]

/-- The tokens of the comparison, with the blanks between them. -/
def written (m : Matching) (gap : Text) : List Token :=
  m.name.token :: (Token.blanks gap ++ (m.op.token :: (Token.blanks gap ++ [m.value.token])))

/-- The tokens ahead of the comparison that is a stage. -/
def barTokens : List Token :=
  openTokens ++ [mark .rBrace, Token.blank, mark .pipe, Token.blank]

variable (m : Matching) {gap : Text} (hgap : ∀ b ∈ gap, Token.isBlank b = true)

theorem significant_written (gap : Text) : Token.significant (m.written gap) = m.tokens := by
  have hop : m.op.token.isTrivia = false :=
    (by decide : ∀ k ∈ matcherOps, (mark k).isTrivia = false) _ m.op.property
  rw [written, Token.significant_cons (Token.whole_significant (identifier_whole m.name)),
    Token.significant_blanks, Token.significant_cons hop, Token.significant_blanks,
    Token.significant_cons (Token.whole_significant (string_whole m.value))]
  rfl

include hgap

theorem lex_text (rest : Text) :
    Token.lex (m.text gap ++ rest) = m.written gap ++ Token.lex rest := by
  have h := Token.lex_comparison m hgap rest
  simp only [text, written, List.append_assoc, List.cons_append, List.nil_append] at h ⊢
  exact h

theorem lex_braced :
    Token.lex (m.braced gap) = [mark .lBrace] ++ m.written gap ++ [mark .rBrace] := by
  have hclose : Token.lex ['}'] = [mark .rBrace] := by decide
  rw [braced, Token.lex_bracket (.head _), m.lex_text hgap, hclose]
  rfl

theorem lex_piped : Token.lex (m.piped gap) = barTokens ++ m.written gap := by
  have hselector : Token.Lexed (openTokens ++ [mark .rBrace]) := by
    unfold Token.Lexed
    decide +kernel
  have hplain : shortSelector = Token.spelled openTokens ++ ['}'] := by decide +kernel
  have hblank : ∀ rest, (∀ c ∈ rest.head?, Token.isBlank c = false) →
      Token.lex (' ' :: rest) = Token.blank :: Token.lex rest := by
    intro rest hr
    exact @Token.lex_blanks ' ' [] rest rfl (by simp) hr
  have hname : ∀ c ∈ (m.text gap).head?, Token.isBlank c = false :=
    Token.whole_not_blank (identifier_whole m.name) _
  have hall : Token.lex (m.text gap) = m.written gap := by
    have h := m.lex_text hgap []
    rwa [List.append_nil, show Token.lex [] = [] from rfl, List.append_nil] at h
  have hbar : Token.lex ('|' :: ' ' :: m.text gap) =
      mark .pipe :: Token.blank :: m.written gap := by
    rw [← hall, ← hblank _ hname]
    exact Token.lex_cons _ _
  have htext : m.piped gap =
      Token.spelled openTokens ++ '}' :: ' ' :: '|' :: ' ' :: m.text gap := by
    rw [piped, hplain, List.append_assoc]
    rfl
  rw [htext, Token.lex_closed hselector (by decide), hblank _ (by simp [Token.isBlank]), hbar]
  simp [barTokens]

theorem significant_braced : significant (m.braced gap) = m.bracedSentence.tokens := by
  rw [significant, m.lex_braced hgap, Tree.significant_append, Tree.significant_append,
    m.significant_written]
  rfl

theorem significant_piped : significant (m.piped gap) = m.pipedSentence.tokens := by
  have hbar : Token.significant barTokens = openTokens ++ [mark .rBrace, mark .pipe] := by
    decide +kernel
  rw [significant, m.lex_piped hgap, Tree.significant_append, hbar, m.significant_written]
  rfl

end Matching

namespace Grammar

/-- What no rule takes behind a selector is one error node. -/
theorem queryTree_left {levels : Nat} {us : List Token} (s : Sentence) (hs : s.stages = [])
    (hu : AtPipelineEnd us) (hj : binaryJoin us = none) (hne : us ≠ []) :
    queryTree (levels + 1) (s.tokens ++ us) =
      .node .logQl [.node .expr [.node .logExpr [s.selectorTree]],
        .node .error (us.map .ofToken)] := by
  have hr : s.Readable := ⟨by simp [hs], by simp [hs]⟩
  have hlevels : deepest Stage.levels s.stages ≤ levels := by simp [hs, deepest]
  have hlog := logExpr_takes s hlevels hr hu
  have hpipeline : Sentence.pipelineTrees s.stages = [] := by rw [hs]; rfl
  have hdepth : deepest Stage.levels s.stages = 0 := by rw [hs]; rfl
  rw [hpipeline, hdepth] at hlog
  have ho : operand levels (expr levels 0) (s.tokens ++ us) =
      node .expr (logExpr levels) (s.tokens ++ us) := rfl
  have hstop : ∀ lhs, joined binaryJoin binary (fun right => orMissing .expr (expr levels right)) 0
      lhs us = ⟨[lhs], us, 0, none⟩ := fun _ => joined_of_none hj
  have hskip : skipUntil [] us = ⟨[.node .error (us.map .ofToken)], [], 0, none⟩ := by
    cases us with
    | nil => exact (hne rfl).elim
    | cons u us => simp [skipUntil, List.takeWhile_eq_self_iff.mpr]
  rw [queryTree, contents, andThen, expr, deepen, chain_eq (ho.trans (node_takes hlog)), hstop]
  simp [Found.absorbed, Found.followed, hne, hskip]

end Grammar

section Strip

variable {q : Text} {s : Sentence} {t : Tree}

/-- A query is valid just if the tree that the grammar gives is free of error nodes. -/
theorem valid_strip (ht : (parse q).strip = t) : isValid q = true ↔ t.Flawless := by
  have hkinds : .error ∈ (parse q).kinds ↔ .error ∈ t.kinds := by
    constructor
    · intro he
      rw [← ht]
      exact Tree.kinds_strip _ rfl he
    · intro he
      rw [← ht, parse_strip] at he
      exact Tree.kinds_withTrivia _ (Token.lex q) he
  have hnamed : Kind.isNamed .error = true := rfl
  rw [isValid, hasElement, hnamed, Bool.true_and, Tree.holds, Bool.not_eq_true',
    Bool.eq_false_iff, ne_eq, List.contains_iff_mem, hkinds, Tree.Flawless]

/-- No token is read as another kind if none of those that the grammar sees is. -/
theorem leaves_kept (h : (parse q).strip.leaves = significant q) :
    (parse q).leaves = Token.lex q := by
  have hreads := parse_reads q
  rw [Tree.leaves_strip _ rfl, significant] at h
  generalize (parse q).leaves = ls at hreads h
  generalize Token.lex q = ts at hreads h
  induction hreads with
  | nil => rfl
  | @cons t l ts ls hr hreads ih =>
    have htrivia := Tree.readAs_trivia hr
    cases ht : t.isTrivia with
    | true =>
      rw [ht] at htrivia
      have hone := Tree.reads_trivia (.cons hr .nil) (by simpa using htrivia)
      have hmore : Token.significant ls = Token.significant ts := by
        simpa [Token.significant, ht, htrivia] using h
      rw [ih hmore, (List.cons.inj hone).1]
    | false =>
      rw [ht] at htrivia
      rw [Token.significant_cons ht, Token.significant_cons htrivia] at h
      obtain ⟨rfl, hmore⟩ := List.cons.inj h
      rw [ih hmore]

theorem sentence_strip (hq : significant q = s.tokens) (hl : s.levels ≤ Grammar.maxLevels)
    (hr : s.Readable) : (parse q).strip = s.tree := by
  rw [parse_strip]
  exact (congrArg _ hq).trans (Grammar.queryTree_sentence s hl hr)

end Strip

/-- Behind some text stands a matcher, and the name that it begins with is an identifier. -/
def Heads (query front name : Text) : Prop :=
  ∃ before gs after, Within (parse query).children before (.node .matcher gs) after ∧
    Token.spelled before = front ∧ gs.head? = some (.leaf .identifier name)

section Heads

variable {q : Text} {m : Matching} {front rest : List Token}

/-- A significant token in some tokens has its place by the significant ones ahead of it. -/
theorem front_unique {ts us xs ys : List Token} {l m : Token} (h : ts ++ l :: xs = us ++ m :: ys)
    (hl : l.isTrivia = false) (hm : m.isTrivia = false)
    (hs : Token.significant ts = Token.significant us) : ts = us := by
  rcases Tree.split_cases h with ⟨rfl, -, -⟩ | ⟨mid, rfl, -⟩ | ⟨mid, rfl, -⟩
  · rfl
  · rw [Tree.significant_append, Token.significant_cons hl, List.self_eq_append_right] at hs
    cases hs
  · rw [Tree.significant_append, Token.significant_cons hm, List.append_right_eq_self] at hs
    cases hs

/-- The tree of a comparison has the comparison's name at its head. -/
theorem heads_sight {s : Spot} (hleaves : (parse q).leaves = Token.lex q)
    (hlex : Token.lex q = front ++ m.name.token :: rest) (hs : s ∈ (parse q).spots .matcher)
    (hsight : s.sight = ⟨Token.significant front, m.tree⟩) :
    Heads q (Token.spelled front) m.name.text := by
  obtain ⟨gs, after, ht, hw⟩ := spot_node rfl (by decide) hs
  obtain ⟨c, x, more, rfl⟩ := matcher_name hw
  have hahead : Token.significant s.ahead = Token.significant front := congrArg Sight.ahead hsight
  have htree : (Tree.node .matcher (.leaf .identifier (c :: x) :: more)).strip = m.tree := by
    rw [← ht]
    exact congrArg Sight.tree hsight
  have hname : m.name.text = c :: x := by
    have hleaf := (List.cons.inj (Tree.node.inj htree).2).1
    exact (Tree.leaf.inj hleaf).2.symm
  refine ⟨_, _, after, hw, ?_, by rw [hname]; rfl⟩
  have hall : s.ahead ++ ⟨.identifier, c :: x⟩ :: (leavesAll more ++ after) =
      front ++ m.name.token :: rest := by
    rw [← hlex, ← hleaves, parse_leaves hw]
    simp [Tree.leaves, leavesAll]
  rw [front_unique hall rfl rfl hahead]

/-- What is extracted of a comparison: its name and the value of its string. -/
theorem matchers_sight {first s : Spot} {more : List Spot}
    (hfirst : (parse q).spots .selector = first :: more) (hs : s ∈ (parse q).spots .matcher)
    (htree : s.tree.strip = m.tree) :
    ∃ f ∈ matchers q, f.key = m.name.text ∧ f.values = [m.value.token.value] ∧
      (f.place = .indexed ↔ s.Below first) := by
  obtain ⟨f, hf, hshown⟩ := exists_of_forall₂ (matchers_shown hfirst) hs
  have htokens : ∀ k : Kind, k.isTrivia = false →
      Tree.tokens k s.tree.children = m.tokens.filter fun l => l.kind = k := by
    intro k hk
    rw [← Tree.tokens_strip hk, ← Tree.strip_children, htree]
    rfl
  obtain ⟨hname, hstring⟩ : m.op.val ≠ .identifier ∧ m.op.val ≠ .string :=
    (by decide : ∀ k ∈ matcherOps, k ≠ .identifier ∧ k ≠ .string) _ m.op.property
  have hkey := hshown.given.key
  have hvalues := hshown.given.values
  rw [htokens _ rfl] at hkey hvalues
  simp [Matching.tokens, Lexeme.token, Sign.token, mark, hname] at hkey
  simp [Matching.tokens, Lexeme.token, Sign.token, mark, hstring] at hvalues
  exact ⟨f, hf, hkey.symm, hvalues, hshown.place⟩

end Heads

namespace Matching

variable (m : Matching) {gap : Text} (hgap : ∀ b ∈ gap, Token.isBlank b = true)

theorem bracedSentence_readable : m.bracedSentence.Readable := by
  constructor <;> simp [bracedSentence]

theorem pipedSentence_leaves : m.pipedSentence.tree.leaves = m.pipedSentence.tokens := rfl

theorem op_ne (k : Kind) (h : k ∉ matcherOps) : m.op.token.kind ≠ k := by
  rintro rfl
  exact h m.op.property

theorem tree_spots (k : Kind) (hk : k ≠ .matcher) (hn : k ≠ .identifier) (hs : k ≠ .string)
    (ho : k ∉ matcherOps) : m.tree.spots k = [] := by
  simp [tree, tokens, Tree.spots, Tree.spotsAll, Tree.ofToken, hk.symm, hn.symm, hs.symm,
    m.op_ne k ho, Lexeme.token]

theorem tree_spot : m.tree.spots .matcher = [⟨[], [], m.tree⟩] := by
  have hop := m.op_ne .matcher (by decide)
  simp [tree, tokens, Tree.spots, Tree.spotsAll, Tree.ofToken, hop, Lexeme.token]

theorem tree_strip : m.tree.strip = m.tree := by
  refine Tree.strip_eq_self _ fun l hl => ?_
  have hl : l ∈ m.tokens := hl
  rw [← significant_written m []] at hl
  simpa using (List.mem_filter.mp hl).2

theorem bracedSentence_tree : m.bracedSentence.tree =
    .node .logQl [.node .expr [.node .logExpr [.node .selector
      [.ofToken (mark .lBrace), .node .matchers [m.tree], .ofToken (mark .rBrace)]]]] := rfl

theorem pipedSentence_tree : m.pipedSentence.tree =
    .node .logQl [.node .expr [.node .logExpr [plainSelector.selectorTree, .node .pipelineExpr
      [.node .pipelineStage [.ofToken (mark .pipe), .node .labelFilter [m.tree]]]]]] := by
  simp [Sentence.tree, pipedSentence, Sentence.pipelineTrees, Stage.trees, Stage.lineTrees,
    Stage.leadingLines, Stage.blocks, Stage.blockTrees, Stage.pipedTree, Piped.tree,
    LabelDisjunction.tree, LabelConjunction.tree, LabelOperand.tree, LabelTest.tree]
  rfl

theorem bracedSentence_spots : m.bracedSentence.tree.spots .matcher =
    [⟨[0, 0, 0, 1, 0], [mark .lBrace], m.tree⟩] := by
  simp [bracedSentence_tree, Tree.spots, m.tree_spot, Tree.spotsAll, Tree.ofToken, mark,
    Spot.under, Tree.leaves]

theorem pipedSentence_spots : ∃ s, m.pipedSentence.tree.spots .matcher =
    [s, ⟨[0, 0, 1, 0, 1, 0], openTokens ++ [mark .rBrace, mark .pipe], m.tree⟩] := by
  have hplain : ∃ s, plainSelector.selectorTree.spots .matcher = [s] := ⟨_, rfl⟩
  obtain ⟨s, hs⟩ := hplain
  refine ⟨((s.under 0 []).under 0 []).under 0 [], ?_⟩
  have hleaves : plainSelector.selectorTree.leaves = openTokens ++ [mark .rBrace] := rfl
  simp [pipedSentence_tree, hs, hleaves, Tree.spots, m.tree_spot, Tree.spotsAll, Tree.ofToken, mark,
    Spot.under, Tree.leaves]

theorem pipedSentence_selector : m.pipedSentence.tree.spots .selector =
    [⟨[0, 0, 0], [], plainSelector.selectorTree⟩] := by
  have hplain : plainSelector.selectorTree.spots .selector =
      [⟨[], [], plainSelector.selectorTree⟩] := rfl
  have hm := m.tree_spots .selector (by decide) (by decide) (by decide) (by decide)
  simp [pipedSentence_tree, hplain, hm, Tree.spots, Tree.spotsAll, Tree.ofToken, mark, Spot.under]

theorem pipedSentence_readable (h : m.name.text ≠ Keyword.unwrap.text) :
    m.pipedSentence.Readable := by
  constructor
  · intro t ht
    obtain rfl := List.mem_singleton.mp ht
    have hspells : m.name.token.spells .unwrap = false := by
      simp [Token.spells, Lexeme.token, h]
    exact hspells
  · simp [pipedSentence]

theorem pipedSentence_levels : m.pipedSentence.levels = 2 := by
  simp [pipedSentence, Sentence.levels, deepest, Stage.levels, Piped.levels,
    LabelDisjunction.levels, LabelDisjunction.inner, LabelConjunction.inner, LabelOperand.inner]

include hgap

theorem braced_strip : (parse (m.braced gap)).strip = m.bracedSentence.tree :=
  sentence_strip (m.significant_braced hgap) (by decide : 1 ≤ Grammar.maxLevels)
    m.bracedSentence_readable

theorem piped_strip (h : m.name.text ≠ Keyword.unwrap.text) :
    (parse (m.piped gap)).strip = m.pipedSentence.tree :=
  sentence_strip (m.significant_piped hgap) (m.pipedSentence_levels.trans_le (by decide))
    (m.pipedSentence_readable h)

/-- A bar before `unwrap` opens no stage, so all behind the selector is an error. -/
theorem piped_strip_unwrap (h : m.name.text = Keyword.unwrap.text) :
    (parse (m.piped gap)).strip = .node .logQl [.node .expr [.node .logExpr
        [plainSelector.selectorTree]], .node .error ((mark .pipe :: m.tokens).map .ofToken)] := by
  have hend : Grammar.AtPipelineEnd (mark .pipe :: m.tokens) := by
    have hspells : m.name.token.spells .unwrap = true := by
      simp [Token.spells, Lexeme.token, h]
    have hstage : Grammar.atStage (mark .pipe :: m.tokens) = !m.name.token.spells .unwrap := rfl
    have hkind : Kind.pipe ∈ [Kind.eof, .rParen, .lBracket, .pipe] := by decide
    exact ⟨hkind, by rw [hstage, hspells]; rfl⟩
  have ht := @Grammar.queryTree_left 255 _ plainSelector rfl hend rfl (by simp)
  rw [parse_strip]
  exact (congrArg _ (m.significant_piped hgap)).trans ht

theorem piped_leaves : (parse (m.piped gap)).leaves = Token.lex (m.piped gap) := by
  refine leaves_kept ?_
  rw [m.significant_piped hgap]
  by_cases h : m.name.text = Keyword.unwrap.text
  · rw [m.piped_strip_unwrap hgap h]
    rfl
  · rw [m.piped_strip hgap h, pipedSentence_leaves]

theorem piped_valid : isValid (m.piped gap) = true ↔ m.name.text ≠ Keyword.unwrap.text := by
  by_cases h : m.name.text = Keyword.unwrap.text
  · rw [valid_strip (m.piped_strip_unwrap hgap h)]
    simp [h]
  · rw [valid_strip (m.piped_strip hgap h)]
    exact iff_of_true (Tree.sentence_flawless _) h

theorem braced_leaves : (parse (m.braced gap)).leaves = Token.lex (m.braced gap) := by
  refine leaves_kept ?_
  rw [m.braced_strip hgap, m.significant_braced hgap]
  rfl

theorem braced_valid : isValid (m.braced gap) = true :=
  (valid_strip (m.braced_strip hgap)).mpr (Tree.sentence_flawless _)

theorem braced_heads : Heads (m.braced gap) ['\x7b'] m.name.text := by
  have hr : ⟨[0, 0, 0, 1, 0], [mark .lBrace], m.tree⟩ ∈ m.bracedSentence.tree.spots .matcher := by
    rw [m.bracedSentence_spots]
    exact .head _
  obtain ⟨s, hs, hsight⟩ := Tree.spot_strip rfl ((m.braced_strip hgap).symm ▸ hr)
  have hlex := m.lex_braced hgap
  rw [List.append_assoc] at hlex
  refine heads_sight (m.braced_leaves hgap) hlex hs ?_
  rw [hsight, Spot.sight, m.tree_strip]

theorem piped_spot (h : m.name.text ≠ Keyword.unwrap.text) :
    ∃ s ∈ (parse (m.piped gap)).spots .matcher,
    s.sight = ⟨Token.significant barTokens, m.tree⟩ := by
  obtain ⟨r, hspots⟩ := m.pipedSentence_spots
  have hr : ⟨[0, 0, 1, 0, 1, 0], openTokens ++ [mark .rBrace, mark .pipe], m.tree⟩ ∈
      m.pipedSentence.tree.spots .matcher := by
    rw [hspots]
    exact .tail _ (.head _)
  obtain ⟨s, hs, hsight⟩ := Tree.spot_strip rfl ((m.piped_strip hgap h).symm ▸ hr)
  refine ⟨s, hs, ?_⟩
  have hbar : Token.significant (openTokens ++ [mark .rBrace, mark .pipe]) =
      Token.significant barTokens := by decide +kernel
  rw [hsight, Spot.sight, m.tree_strip, hbar]

theorem piped_heads (h : m.name.text ≠ Keyword.unwrap.text) :
    Heads (m.piped gap) (shortSelector ++ barText) m.name.text := by
  obtain ⟨s, hs, hsight⟩ := m.piped_spot hgap h
  have hfront : shortSelector ++ barText = Token.spelled barTokens := by decide +kernel
  rw [hfront]
  exact heads_sight (m.piped_leaves hgap) (m.lex_piped hgap) hs hsight

/-- The matcher of the stage is on a label that is not indexed. -/
theorem piped_matchers (h : m.name.text ≠ Keyword.unwrap.text) :
    ∃ f ∈ matchers (m.piped gap), f.key = m.name.text ∧ f.values = [m.value.token.value] ∧
      f.place = .nonIndexed := by
  obtain ⟨s, hs, hsight⟩ := m.piped_spot hgap h
  have hselector := Tree.spots_strip (k := .selector) rfl (parse (m.piped gap))
  rw [m.piped_strip hgap h, m.pipedSentence_selector] at hselector
  obtain ⟨first, hspots, hfirst⟩ := List.map_eq_singleton_iff.mp hselector.symm
  have htree : s.tree.strip = m.tree := congrArg Sight.tree hsight
  obtain ⟨f, hf, hkey, hvalues, hplace⟩ := matchers_sight hspots hs htree
  refine ⟨f, hf, hkey, hvalues, ?_⟩
  have hn : ¬ s.Below first := by
    have hmem : first ∈ (parse (m.piped gap)).spots .selector := by
      rw [hspots]
      exact .head _
    have hbar : (Token.significant barTokens).length = 6 := by decide +kernel
    have hown : plainSelector.selectorTree.strip.leaves.length = 5 := by decide +kernel
    have htest : m.tree.leaves.length = 3 := rfl
    rw [below_seen hmem hs, hsight, hfirst, Spot.sight, hbar, htest, hown]
    exact fun hle => absurd hle.2 (by decide)
  cases hp : f.place with
  | indexed => exact absurd (hplace.mp hp) hn
  | nonIndexed => rfl

end Matching

/-- Every name may stand for a label: compared with a string, in braces and behind a bar, it is an
identifier at the head of a matcher, and no token is read as a word of the language. Behind the bar
the matcher is on a label that is not indexed. The one exception is the name `unwrap` behind the
bar, which makes the query invalid. -/
theorem label_named (m : Matching) (gap : Text) (hgap : ∀ b ∈ gap, Token.isBlank b = true) :
    (isValid (m.braced gap) = true ∧
      (parse (m.braced gap)).leaves = Token.lex (m.braced gap) ∧
      Heads (m.braced gap) ['\x7b'] m.name.text) ∧
    (parse (m.piped gap)).leaves = Token.lex (m.piped gap) ∧
    (isValid (m.piped gap) = true ↔ m.name.text ≠ Keyword.unwrap.text) ∧
    (m.name.text ≠ Keyword.unwrap.text →
      Heads (m.piped gap) (shortSelector ++ Matching.barText) m.name.text ∧
        ∃ f ∈ matchers (m.piped gap), f.key = m.name.text ∧
          f.values = [m.value.token.value] ∧ f.place = .nonIndexed) :=
  ⟨⟨m.braced_valid hgap, m.braced_leaves hgap, m.braced_heads hgap⟩, m.piped_leaves hgap,
    m.piped_valid hgap, fun h => ⟨m.piped_heads hgap h, m.piped_matchers hgap h⟩⟩

/-- A label with the name of the parser for JSON. -/
def jsonMatching : Matching :=
  ⟨⟨"json".toList, rfl⟩, ⟨.neq, .tail _ (.head _)⟩, ⟨"\"x\"".toList, rfl⟩⟩

theorem label_named_json :
    (∀ b ∈ [' '], Token.isBlank b = true) ∧
      (isValid (jsonMatching.braced [' ']) = true ∧
        (parse (jsonMatching.braced [' '])).leaves = Token.lex (jsonMatching.braced [' ']) ∧
        Heads (jsonMatching.braced [' ']) ['\x7b'] jsonMatching.name.text) ∧
      (parse (jsonMatching.piped [' '])).leaves = Token.lex (jsonMatching.piped [' ']) ∧
      (isValid (jsonMatching.piped [' ']) = true ↔
        jsonMatching.name.text ≠ Keyword.unwrap.text) ∧
      jsonMatching.name.text ≠ Keyword.unwrap.text ∧
      Heads (jsonMatching.piped [' ']) (shortSelector ++ Matching.barText)
        jsonMatching.name.text ∧
      ∃ f ∈ matchers (jsonMatching.piped [' ']), f.key = jsonMatching.name.text ∧
        f.values = [jsonMatching.value.token.value] ∧ f.place = .nonIndexed := by
  have hgap : ∀ b ∈ [' '], Token.isBlank b = true := by simp [Token.isBlank]
  have hname : jsonMatching.name.text ≠ Keyword.unwrap.text := by decide
  obtain ⟨hbraced, hleaves, hvalid, hpiped⟩ := label_named jsonMatching [' '] hgap
  exact ⟨hgap, hbraced, hleaves, hvalid, hname, hpiped hname⟩

theorem eq_matches : Kind.eq ∈ Grammar.matcherOps := .head _

def unwrapMatching : Matching :=
  ⟨⟨"unwrap".toList, rfl⟩, ⟨.eq, eq_matches⟩, jsonMatching.value⟩

/-- A bar takes `unwrap` for the start of an unwrapped range, although a comparison follows. -/
theorem label_not_named :
    unwrapMatching.piped [' '] = "\x7ba=\"b\"\x7d | unwrap = \"x\"".toList ∧
      isValid (unwrapMatching.piped [' ']) = false := by
  constructor <;> decide +kernel

end LogQuery
