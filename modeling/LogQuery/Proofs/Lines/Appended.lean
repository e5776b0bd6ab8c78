import LogQuery.Proofs.Amounts
import LogQuery.Proofs.Grammar.Grows
import LogQuery.Proofs.Labels.Name
import LogQuery.Proofs.Lines.Printed
import LogQuery.Proofs.Origin.Nested
import LogQuery.Proofs.Token.Line

/-! A line filter on a line of its own behind a log query. The query keeps what it has, unless the
sign of the filter belongs to a name at its end. -/
namespace LogQuery

open LogQuery.Grammar (ReadsLine StaysApart logTrees)
open LogQuery.Tree (Grown leavesAll ofToken)

variable {q : Text} {l : LineTest} {sel ss : List Tree} {keep : Kind → Bool}

/-- The tree of a single log query, from what its selector holds and from its stages. -/
def logTree (sel ss : List Tree) : Tree := .node .logQl (logTrees sel ss)

def withLine (q : Text) (l : LineTest) : Text := q ++ '\n' :: l.text

/-- The kinds of matchers, of label filters and of the words that parse lines. -/
def keptKinds : List Kind := [.matcher, .labelFilter, .keyword .json, .keyword .logfmt]

/-- A query with a line filter behind it is a query with one more line filter, and the same in all
else. -/
structure LineAdded (q : Text) (l : LineTest) : Prop where
  valid : isValid (withLine q l) = true
  line : ∃ t : Tree, t.strip = l.tree ∧ t.text = l.text ∧
    elements (withLine q l) (some [.lineFilter]) =
      elements q (some [.lineFilter]) ++ [t.elementAt (q.bytes + 1)]
  kept : ∀ ks ⊆ keptKinds, elements (withLine q l) (some ks) = elements q (some ks)

/-- The tokens of a query up to the last that the grammar sees, and the blanks and comments behind
it. -/
structure Trailed (q : Text) (body trail : List Token) : Prop where
  lexes : Token.lex q = body ++ trail
  ends : ∃ t ∈ body.getLast?, t.isTrivia = false
  trivia : ∀ t ∈ trail, t.isTrivia = true

theorem trailed (hv : isValid q = true) (hn : stripped q ≠ []) :
    ∃ body trail, Trailed q body trail := by
  refine ⟨(Token.lex q).rdropWhile Token.isTrivia, (Token.lex q).rtakeWhile Token.isTrivia,
    List.rdropWhile_append_rtakeWhile.symm, ?_, fun t ht => List.mem_rtakeWhile_imp ht⟩
  have hne : (Token.lex q).rdropWhile Token.isTrivia ≠ [] := by
    intro hnil
    have hsignificant : significant q = [] :=
      Tree.significant_trivia (List.rdropWhile_eq_nil_iff.mp hnil)
    have hreads := stripped_reads q
    obtain ⟨c, cs, hcs⟩ := List.exists_cons_of_ne_nil hn
    rw [hsignificant, List.forall₂_nil_left_iff, hcs, leavesAll, List.append_eq_nil_iff] at hreads
    exact Tree.conforms_leaves (stripped_conforms hv c (hcs ▸ .head _)) hreads.1
  exact ⟨_, List.getLast?_eq_some_getLast hne, by simpa using List.rdropWhile_last_not _ _ hne⟩

theorem trailed_significant {body trail : List Token} (h : Trailed q body trail) :
    Token.significant body = significant q := by
  rw [significant, h.lexes, Tree.significant_append, Tree.significant_trivia h.trivia,
    List.append_nil]

theorem lex_withLine (hv : isValid q = true) (l : LineTest) :
    Token.lex (withLine q l) = Token.endLine (Token.lex q) ++ Token.lex l.text := by
  have hknown : ∀ t ∈ Token.lex q, t.kind ≠ .unknown := by
    intro t ht hk
    rw [unknown_invalid ht hk] at hv
    cases hv
  have hline := Token.lex_line (Token.lexed_lex q) hknown l.text_not_blank
  rwa [Token.spelled_lex] at hline

theorem significant_withLine (hv : isValid q = true) (l : LineTest) :
    significant (withLine q l) = significant q ++ l.tokens := by
  rw [significant, lex_withLine hv, Tree.significant_append, Token.significant_endLine,
    l.text_significant, significant]

theorem stripped_logTrees (ht : (parse q).strip = logTree sel ss) :
    stripped q = logTrees sel ss := by
  rw [parse_strip] at ht
  exact (Tree.node.inj ht).2

theorem printed_walk (hkeep : ∀ k ∈ LineTest.kinds, keep k = false) (before : Text) :
    (l.printed.elementAt before.bytes).walk keep =
      if keep .lineFilter then [l.printed.elementAt before.bytes] else [] := by
  have hparts : Tree.partsAll keep l.printed.children = [] :=
    Tree.partsAll_none _ fun k hk => hkeep k (l.children_kinds k hk)
  have hbelow : List.Forall₂ (Element.Located (before ++ Tree.textAll l.printed.children ++ []))
      (Element.walkAll keep (Tree.elementsAt before.bytes l.printed.children))
      (Tree.partsAll keep l.printed.children) := Element.walkAll_located _ rfl
  rw [hparts, List.forall₂_nil_right_iff] at hbelow
  have hnode : (l.printed.elementAt before.bytes).walk keep =
      (if keep .lineFilter then [l.printed.elementAt before.bytes] else []) ++
        Element.walkAll keep (Tree.elementsAt before.bytes l.printed.children) := rfl
  rw [hnode, hbelow, List.append_nil]

section Appended

variable (hv : isValid q = true) (ht : (parse q).strip = logTree sel ss)
  (ha : StaysApart l (significant q) ss)

include hv ht ha

/-- Without blanks, the tree of the query grows by the tree that the filter is read as. -/
theorem stripped_grown {t : Tree} (hread : ReadsLine l (Grammar.maxLevels - 1) t) :
    Grown t [] (stripped q) (stripped (withLine q l)) := by
  have hflawless := (valid_strip ht).mp hv
  rw [logTree, Tree.flawless_node] at hflawless
  have hsame := stripped_logTrees ht
  rw [hsame, stripped, significant_withLine hv]
  exact Grammar.contents_grown hread hsame hflawless.2 ha

/-- Strings that are more than rules may nest are refused. -/
theorem withLine_refused (hl : Grammar.maxLevels ≤ l.levels) : isValid (withLine q l) = false := by
  obtain ⟨t, hread, hflawed⟩ := Grammar.readsLine_refused (Nat.lt_of_succ_le hl)
  rw [← Bool.not_eq_true, valid_strip (parse_strip _)]
  exact fun h => Tree.grown_flawed (stripped_grown hv ht ha hread) hflawed
    (Tree.flawless_node.mp h).2

variable (hl : l.levels < Grammar.maxLevels)

include hl

theorem stripped_withLine : Grown l.tree [] (stripped q) (stripped (withLine q l)) :=
  stripped_grown hv ht ha (Grammar.readsLine (Nat.le_of_lt_succ hl))

theorem withLine_valid : isValid (withLine q l) = true := by
  have hflawless := (valid_strip ht).mp hv
  rw [logTree, Tree.flawless_node, ← stripped_logTrees ht] at hflawless
  refine (valid_strip (parse_strip _)).mpr (Tree.flawless_node.mpr ⟨by decide, ?_⟩)
  exact Tree.grown_flawless (stripped_withLine hv ht ha hl) (Tree.lineTest_flawless l)
    hflawless.2 Tree.allFlawless_nil

/-- So does the tree with blanks, behind the blanks that the query ends in. -/
theorem withLine_children : ∃ gs trail, (parse q).children = gs ++ trail.map ofToken ∧
    (∀ t ∈ trail, t.isTrivia = true) ∧
    Grown l.printed (Token.endLine trail) gs (parse (withLine q l)).children := by
  have hsame := stripped_logTrees ht
  have hn : stripped q ≠ [] := by
    rw [hsame]
    exact List.cons_ne_nil _ _
  obtain ⟨body, trail, h⟩ := trailed hv hn
  obtain ⟨t, hlast, hend⟩ := h.ends
  have hreads : List.Forall₂ Token.ReadAs (Token.significant body) (leavesAll (stripped q)) := by
    rw [trailed_significant h]
    exact stripped_reads q
  have hbare := Tree.conforms_endsBareAll _ hn (stripped_conforms hv)
  have hleft := Tree.fillAll_left hreads hbare hlast hend
  have halone := Tree.fillAll_alone hreads hbare hlast hend
  have hlex : Token.lex (withLine q l) = body ++ (Token.endLine trail ++ Token.lex l.text) := by
    rw [lex_withLine hv, h.lexes, Token.endLine_append, List.append_assoc]
    intro u hu
    rw [hlast] at hu
    exact Option.some.inj hu ▸ hend
  obtain ⟨hgrown, hrest⟩ := Tree.grown_fill (stripped_withLine hv ht ha hl) rfl
    (Token.endLine_trivia h.trivia) l.text_opens (Token.lex (withLine q l)) (hlex ▸ hleft _)
  have hchildren : ∀ q, (parse q).children = (Tree.fillAll (stripped q) (Token.lex q)).1 ++
      (Tree.fillAll (stripped q) (Token.lex q)).2.map ofToken := fun _ => rfl
  refine ⟨(Tree.fillAll (stripped q) body).1, trail, ?_, h.trivia, ?_⟩
  · rw [hchildren, h.lexes, halone, hleft]
  · rw [hchildren, hrest, l.printed_reads.2, List.map_nil, List.append_nil]
    rwa [hlex, halone, ← hlex] at hgrown

/-- What a walk finds in the query, it finds again, and then what it finds in the filter. -/
theorem withLine_walk (hroot : keep .logQl = false)
    (hkeep : ∀ k ∈ Tree.growingKinds, keep k = false) :
    (rootElement (withLine q l)).walk keep =
      (rootElement q).walk keep ++ (l.printed.elementAt (q.bytes + 1)).walk keep := by
  obtain ⟨gs, trail, hchildren, htrail, hgrown⟩ := withLine_children hv ht ha hl
  have hbytes : Tree.bytesAll gs + (Token.spelled (Token.endLine trail)).bytes = q.bytes + 1 := by
    have htext : Tree.textAll (parse q).children = q := by
      have h := parse_text q
      rwa [parse_children] at h
    have hq := congrArg Text.bytes htext
    rw [Tree.bytes_textAll, hchildren, Tree.bytesAll_append, Tree.bytesAll_ofToken] at hq
    rw [Token.spelled_endLine, Text.bytes_append, ← Nat.add_assoc, hq]
    rfl
  rw [root_walk hroot, root_walk hroot, root_children, root_children, hchildren,
    Tree.elementsAt_append, Tree.elementsAt_trivia htrail, List.append_nil,
    Tree.grown_walk hkeep rfl hgrown (Token.endLine_trivia htrail), Nat.zero_add, hbytes]

/-- The same with the kinds of the elements listed. -/
theorem withLine_elements {ks : List Kind}
    (hks : ∀ k ∈ .logQl :: Tree.growingKinds ++ LineTest.kinds, k ∉ ks) :
    elements (withLine q l) (some ks) = elements q (some ks) ++
      if .lineFilter ∈ ks then [l.printed.elementAt (q.bytes + 1)] else [] := by
  have helements : ∀ q, elements q (some ks) = (rootElement q).walk fun k => ks.contains k :=
    fun _ => rfl
  have hstart : q.bytes + 1 = (q ++ ['\n']).bytes := (Text.bytes_append q ['\n']).symm
  have hline : ∀ k ∈ LineTest.kinds, (fun k => ks.contains k) k = false :=
    fun k hk => by simpa using hks k (by simp [hk])
  have hfilter := printed_walk (l := l) hline (q ++ ['\n'])
  rw [← hstart] at hfilter
  rw [helements, helements, withLine_walk hv ht ha hl (by simpa using hks _ (.head _))
    fun k hk => by simpa using hks k (by simp [hk]), hfilter]
  simp only [List.contains_iff_mem]

theorem withLine_added : LineAdded q l := by
  refine ⟨withLine_valid hv ht ha hl, ⟨l.printed, l.printed_strip, l.printed_text, ?_⟩, ?_⟩
  · exact withLine_elements hv ht ha hl (by decide)
  · intro ks hks
    have hnone : ∀ k ∈ .lineFilter :: .logQl :: Tree.growingKinds ++ LineTest.kinds, k ∉ ks :=
      fun k hk hm => absurd (hks hm)
        ((by decide : ∀ k ∈ .lineFilter :: .logQl :: Tree.growingKinds ++ LineTest.kinds,
          k ∉ keptKinds) k hk)
    rw [withLine_elements hv ht ha hl fun k hk => hnone k (.tail _ hk),
      if_neg (hnone _ (.head _)), List.append_nil]

end Appended

/-- A line filter on a line of its own behind a log query comes to its line filters, unless its sign
belongs to a name that the last stage ends in, and just if its strings are no more than rules may
nest. -/
theorem lineFilter_appended (hv : isValid q = true) (ht : (parse q).strip = logTree sel ss)
    (ha : StaysApart l (significant q) ss) : LineAdded q l ↔ l.levels < Grammar.maxLevels := by
  refine ⟨fun h => ?_, withLine_added hv ht ha⟩
  by_contra hl
  have hvalid := h.valid
  rw [withLine_refused hv ht ha (Nat.not_lt.mp hl)] at hvalid
  cases hvalid

section Samples

theorem neq_filters : Kind.neq ∈ Grammar.lineOps := by decide

/-- The lines that hold none of some strings, all of them the same. -/
def lacking (more : Nat) : LineTest :=
  ⟨⟨.neq, neq_filters⟩, .text jsonMatching.value, List.replicate more (.text jsonMatching.value)⟩

/-- A label taken from JSON, and a comment at the end. -/
def takenText : Text := "\x7ba=\"b\"\x7d | json c # d".toList

def takenStages : List Stage := [.piped (.json [⟨⟨['c'], rfl⟩, none⟩])]

theorem pipelined_trees (ss : List Stage) :
    Grammar.pipelined (Stage.trees ss) = Sentence.pipelineTrees ss := by
  cases ss with
  | nil => rfl
  | cons s ss => cases s <;> rfl

theorem strip_plain (ss : List Stage)
    (hq : significant q = { plainSelector with stages := ss }.tokens)
    (hl : deepest Stage.levels ss < Grammar.maxLevels)
    (hr : ({ plainSelector with stages := ss } : Sentence).Readable) :
    (parse q).strip = logTree plainSelector.selectorTree.children (Stage.trees ss) := by
  rw [sentence_strip hq hl hr, logTree, logTrees, pipelined_trees]
  rfl

theorem taken_strip : (parse takenText).strip =
    logTree plainSelector.selectorTree.children (Stage.trees takenStages) := by
  refine strip_plain _ (by decide +kernel) (by decide) ⟨fun s hs => ?_, by simp [takenStages]⟩
  obtain rfl := List.mem_singleton.mp hs
  rfl

theorem lineFilter_appended_taken :
    isValid takenText = true ∧
      (parse takenText).strip =
        logTree plainSelector.selectorTree.children (Stage.trees takenStages) ∧
      StaysApart (lacking 1) (significant takenText) (Stage.trees takenStages) ∧
      LineAdded takenText (lacking 1) := by
  have hv : isValid takenText = true := by decide +kernel
  have ha : StaysApart (lacking 1) (significant takenText) (Stage.trees takenStages) := by
    rintro - ⟨-, cs, hcs, s, hs, hopen⟩
    obtain ⟨extraction, hstages⟩ : ∃ extraction, Stage.trees takenStages =
        [.node .pipelineStage [ofToken (Kind.mark .pipe),
          .node .jsonExpressionParser extraction]] := ⟨_, rfl⟩
    rw [hstages] at hcs
    obtain rfl := (Tree.node.inj (Option.some.inj hcs)).2
    have hkinds : Kind.pipe ∉ Grammar.openStages ∧
        Kind.jsonExpressionParser ∉ Grammar.openStages := by decide
    rcases List.mem_pair.mp hs with rfl | rfl
    · exact hkinds.1 hopen
    · exact hkinds.2 hopen
  exact ⟨hv, taken_strip, ha, (lineFilter_appended hv taken_strip ha).mpr (by decide)⟩

/-- The word for JSON alone. -/
def parsedText : Text := "\x7ba=\"b\"\x7d | json".toList

/-- A sign behind such a word compares a label of that name. More than 256 strings are refused. -/
theorem lineFilter_not_appended :
    (isValid parsedText = true ∧
      (parse parsedText).strip =
        logTree plainSelector.selectorTree.children (Stage.trees [.piped (.json [])]) ∧
      ¬ LineAdded parsedText (lacking 0)) ∧
    isValid shortSelector = true ∧
      (parse shortSelector).strip = logTree plainSelector.selectorTree.children [] ∧
      ¬ LineAdded shortSelector (lacking 256) := by
  have hv : isValid shortSelector = true := by decide +kernel
  have hstrip : (parse shortSelector).strip = logTree plainSelector.selectorTree.children [] :=
    strip_plain [] (by decide +kernel) (by decide) ⟨by simp, by simp⟩
  refine ⟨⟨by decide +kernel, ?_, fun h => ?_⟩, hv, hstrip, fun h => ?_⟩
  · refine strip_plain _ (by decide +kernel) (by decide) ⟨fun s hs => ?_, by simp⟩
    obtain rfl := List.mem_singleton.mp hs
    rfl
  · obtain ⟨t, -, -, hline⟩ := h.line
    have hnone : (elements (withLine parsedText (lacking 0)) (some [.lineFilter])).length = 0 := by
      decide +kernel
    rw [hline, List.length_append] at hnone
    simp at hnone
  · have hvalid := h.valid
    rw [withLine_refused hv hstrip (by rintro - ⟨-, _, hnone, -⟩; cases hnone)
      (Nat.le_of_eq List.length_replicate.symm)] at hvalid
    cases hvalid

end Samples

end LogQuery
