import LogQuery.Proofs.FieldParser
import LogQuery.Proofs.Grammar.Closed
import LogQuery.Proofs.Labels
import LogQuery.Proofs.Token.Sign
import LogQuery.Proofs.Tree.Spot

/-! What follows a selector that closes changes nothing of what is read off its matchers. -/
namespace LogQuery

open LogQuery.Tree (Within Spine spineKinds leavesAll fillAll)
open Kind (mark)

/-- A valid query that is one selector. Blanks and comments may stand ahead of it, and nothing
behind. -/
def isSelector (query : Text) : Bool :=
  isValid query &&
    match (parse query).children.dropWhile Tree.isTrivia with
    | [.node .expr [.node .logExpr [.node .selector _]]] => true
    | _ => false

/-- The tokens of such a query, and what the grammar makes of them. -/
structure SelectorTokens (query : Text) (trivia own : List Token) (ds : List Tree) : Prop where
  tokens : Token.lex query = trivia ++ own
  ahead : ∀ t ∈ trivia, t.isTrivia = true
  opens : own.dropWhile Token.isTrivia = own
  brace : Grammar.atKind .lBrace (Token.significant own) = true
  found : (Grammar.selector (Token.significant own)).trees = [.node .selector ds]
  taken : (Grammar.selector (Token.significant own)).rest = []
  reads : List.Forall₂ Token.ReadAs (Token.significant own) (leavesAll ds)
  full : Tree.endsBareAll ds = false
  filled : List.Forall₂ Token.ReadAs own (leavesAll (fillAll ds own).1)
  children : (parse query).children = trivia.map Tree.ofToken ++ selectorTrees (fillAll ds own).1

variable {s : Text} {trivia own : List Token} {ds : List Tree} {keep : Kind → Bool}

/-- Such a query is blanks and comments, and the trees of its selector. -/
theorem isSelector_children (h : isSelector s = true) :
    ∃ (trivia : List Token) (cs : List Tree), (∀ t ∈ trivia, t.isTrivia = true) ∧
      (parse s).children = trivia.map Tree.ofToken ++ selectorTrees cs := by
  have hsplit : (parse s).children.takeWhile Tree.isTrivia ++
      (parse s).children.dropWhile Tree.isTrivia = (parse s).children :=
    List.takeWhile_append_dropWhile
  obtain ⟨trivia, htrivia, hahead⟩ := @Tree.trivia_trees
    ((parse s).children.takeWhile Tree.isTrivia) fun c hc => List.mem_takeWhile_imp hc
  rw [isSelector, Bool.and_eq_true] at h
  have hmatch := h.2
  split at hmatch
  · next cs hcs =>
    rw [hahead, hcs] at hsplit
    exact ⟨trivia, cs, htrivia, hsplit.symm⟩
  · cases hmatch

theorem isSelector_valid (h : isSelector s = true) : isValid s = true :=
  (Bool.and_eq_true_iff.mp h).1

theorem selector_tokens (h : isSelector s = true) :
    ∃ trivia own ds, SelectorTokens s trivia own ds := by
  have hvalid := isSelector_valid h
  obtain ⟨trivia, cs, htrivia, hchildren⟩ := isSelector_children h
  have hw : Within (parse s).children trivia (.node .selector cs) [] := by
    have hin : Within (selectorTrees cs) [] (.node .selector cs) [] :=
      .inside _ [] (.inside _ [] (.head _ []))
    have happ := Tree.within_append_right hin (trivia.map Tree.ofToken)
    rwa [Tree.leavesAll_ofToken, List.append_nil, ← hchildren] at happ
  have hleaves : (parse s).leaves = trivia ++ leavesAll cs := by
    rw [parse_leaves hw, List.append_nil]
    rfl
  obtain ⟨front, own, hlex, hfront, hown, -, -⟩ := parse_parted hleaves
  obtain rfl := Tree.reads_trivia hfront htrivia
  obtain ⟨ahead, ds, behind, hf⟩ := parse_filled hw
  have hdrop : (Token.lex s).drop front.length = own := by rw [hlex, List.drop_left]
  have hds := filled_leaves hf
  have hsite := stripped_sites s ahead _ ds behind hf.origin
  rw [significant, ← hf.significant, hdrop] at hsite
  obtain ⟨hbrace, hfound⟩ := hsite.selector rfl
  have hreads : List.Forall₂ Token.ReadAs (Token.significant own) (leavesAll ds) := by
    rw [← hds]
    exact Tree.reads_significant hown
  have hcs := hf.children
  rw [hdrop] at hcs
  refine ⟨front, own, ds, hlex, htrivia, ?_, hbrace, hfound, ?_, hreads, ?_, ?_, ?_⟩
  · have hopens := hf.opens
    rwa [hdrop] at hopens
  · obtain ⟨b, bs, he, hb⟩ := Grammar.atKind_cons hbrace
    obtain ⟨us, hus, hr⟩ := he ▸ (Grammar.selector_sound hb bs).reads
    rw [hfound] at hr
    have htaken : us.length = (Token.significant own).length := by
      rw [hr.length_eq, hreads.length_eq, leavesAll, leavesAll, List.append_nil]
      rfl
    have hlen := congrArg List.length hus
    rw [List.length_append] at hlen
    exact List.length_eq_zero_iff.mp (by omega)
  · exact Tree.conforms_endsBare _ (Tree.conforms_within (stripped_conforms hvalid) hf.origin)
  · rwa [← hcs]
  · rw [hchildren, hcs]

/-- The last token is the closing brace. -/
theorem selector_ends (h : SelectorTokens s trivia own ds) :
    ∃ front, own = front ++ [mark .rBrace] := by
  obtain ⟨⟨seen, b, hseen, hb⟩, -⟩ := Grammar.selector_closed h.brace h.found h.taken h.full
  obtain ⟨l, hl, hlt⟩ := Tree.fillAll_closes ds own (Tree.leaves_significant h.reads) h.full
  obtain ⟨front, c, rfl, hc⟩ := Tree.reads_last h.filled hl
  have hct : c.isTrivia = false := (Tree.readAs_trivia hc).symm.trans hlt
  have hlast : c = b := by
    rw [Tree.significant_append, Token.significant_cons hct] at hseen
    have hg := congrArg List.getLast? hseen
    rw [List.getLast?_concat] at hg
    exact Option.some.inj (List.getLast?_concat.symm.trans hg)
  have hmem : c ∈ Token.lex s := by
    rw [h.tokens]
    simp
  have htext := Token.sign_text hmem (by rw [hlast, hb]; decide)
  have hmark : c = mark .rBrace := by
    rw [mark, ← hb, ← hlast, ← htext]
  exact ⟨front, by rw [hmark]⟩

/-- Behind it the tokens are those of the text that follows. -/
theorem lex_suffix (hv : isValid s = true) (h : SelectorTokens s trivia own ds) (t : Text) :
    Token.lex (s ++ t) = trivia ++ (own ++ Token.lex t) := by
  obtain ⟨front, rfl⟩ := selector_ends h
  have hlexed : Token.Lexed ((trivia ++ front) ++ [mark .rBrace]) := by
    rw [List.append_assoc, ← h.tokens]
    exact Token.lexed_lex s
  have hs : s = Token.spelled (trivia ++ front) ++ ['}'] := by
    rw [← Token.spelled_lex s, h.tokens, ← List.append_assoc, Token.spelled_append]
    rfl
  have hknown : ∀ u ∈ trivia ++ front, u.kind ≠ .unknown := by
    intro u hu hk
    have hmem : u ∈ Token.lex s := by
      rw [h.tokens, ← List.append_assoc]
      exact List.mem_append_left _ hu
    rw [unknown_invalid hmem hk] at hv
    cases hv
  have hclosed := Token.lex_closed hlexed hknown t
  conv_lhs => rw [hs, List.append_assoc]
  rw [List.singleton_append, hclosed]
  simp

/-- The tree of the longer query begins with the same selector. -/
theorem parse_suffix (hv : isValid s = true) (h : SelectorTokens s trivia own ds) (t : Text) :
    ∃ c more, (parse (s ++ t)).children = trivia.map Tree.ofToken ++ c :: more ∧
      Spine (.node .selector (fillAll ds own).1) c := by
  have hlex := lex_suffix hv h t
  have hsig : significant (s ++ t) =
      Token.significant own ++ Token.significant (Token.lex t) := by
    rw [significant, hlex, Tree.significant_append, Tree.significant_trivia h.ahead,
      List.nil_append, Tree.significant_append]
  obtain ⟨-, hclosed⟩ := Grammar.selector_closed h.brace h.found h.taken h.full
  have hbrace : Grammar.atKind .lBrace (significant (s ++ t)) = true := by
    obtain ⟨u, us, hu, hk⟩ := Grammar.atKind_cons h.brace
    rw [hsig, hu]
    simpa [Grammar.atKind] using hk
  have hfound := (hclosed (Token.significant (Token.lex t))).1
  rw [← hsig] at hfound
  obtain ⟨c, more, hc, hspine⟩ := Grammar.contents_spine hbrace hfound 255
  obtain ⟨front, rfl⟩ := selector_ends h
  have hopens := Tree.opens_append (by simp) h.opens (Token.lex t)
  have hfill := Tree.spine_fill hopens hspine
  rw [Tree.fill_node, Tree.fillAll_alone h.reads h.full List.getLast?_concat rfl] at hfill
  have hchildren : (parse (s ++ t)).children =
      (fillAll (stripped (s ++ t)) (Token.lex (s ++ t))).1 ++
        (fillAll (stripped (s ++ t)) (Token.lex (s ++ t))).2.map Tree.ofToken := rfl
  rw [hchildren, show stripped (s ++ t) = c :: more from hc, hlex,
    Tree.fillAll_behind h.ahead hopens, List.append_assoc, List.cons_append]
  exact ⟨_, _, rfl, hfill⟩

section Front

variable {e f : Element} {u : Tree} {n : Nat}

theorem text_front (h : e.span.stop ≤ s.bytes) (t : Text) :
    e.span.text (s ++ t) = e.span.text s := by
  rw [Span.text, Span.text, Text.slice_front h]

theorem unquoted_front (h : e.span.stop ≤ s.bytes) (t : Text) :
    e.span.unquoted (s ++ t) = e.span.unquoted s := by
  rw [Span.unquoted, Span.unquoted, Text.slice_front (by omega)]

/-- What is found in an element of the front is one of the front. -/
theorem inside_front (h : n + u.bytes ≤ s.bytes) (he : e ∈ (u.elementAt n).walk keep) :
    ∃ (v : Tree) (m : Nat), m + v.bytes ≤ s.bytes ∧ e = v.elementAt m := by
  obtain ⟨before, v, after, -, -, rfl⟩ := Element.walk_within u n he
  refine ⟨v, _, ?_, rfl⟩
  have hspan := (Element.walk_span u n he).2
  rw [Element.elementAt_span] at hspan
  exact hspan.trans h

theorem found_front (h : n + u.bytes ≤ s.bytes) (hf : f ∈ (u.elementAt n).walk keep) :
    f.span.start ≤ f.span.stop ∧ f.span.stop ≤ s.bytes := by
  obtain ⟨v, m, hm, rfl⟩ := inside_front h hf
  rw [Element.elementAt_span]
  exact ⟨Nat.le_add_right _ _, hm⟩

theorem ofElement_front (h : n + u.bytes ≤ s.bytes) (selector : Span) (t : Text) :
    Matcher.ofElement? (s ++ t) selector (u.elementAt n) =
      Matcher.ofElement? s selector (u.elementAt n) := by
  have hstrings : ∀ f ∈ (u.elementAt n).outermost .string,
      f.span.start ≤ f.span.stop ∧ f.span.stop ≤ s.bytes := fun f hf =>
    found_front h (Element.outermost_walk _ hf)
  have hvalues : ((u.elementAt n).outermost .string).map (·.span.unquoted (s ++ t)) =
      ((u.elementAt n).outermost .string).map (·.span.unquoted s) :=
    List.map_congr_left fun f hf => unquoted_front (hstrings f hf).2 t
  have hstop : ((((u.elementAt n).outermost .string).head?.map (·.span.start)).getD
      (u.elementAt n).span.stop) ≤ s.bytes := by
    cases hs : ((u.elementAt n).outermost .string).head? with
    | none =>
      rw [Element.elementAt_span]
      exact h
    | some f =>
      obtain ⟨hle, hend⟩ := hstrings f (List.mem_of_mem_head? hs)
      exact hle.trans hend
  unfold Matcher.ofElement?
  cases hname : (u.elementAt n).first? .identifier with
  | none => rfl
  | some name =>
    have hkey := text_front (found_front h (Element.first_walk hname)).2 t
    simp only [Option.map_some, hkey, hvalues, Text.slice_front hstop]

theorem labelValue_front (h : n + u.bytes ≤ s.bytes) (label t : Text) :
    labelValue? (s ++ t) label (u.elementAt n) = labelValue? s label (u.elementAt n) := by
  unfold labelValue?
  cases hname : (u.elementAt n).child? .identifier with
  | none => rfl
  | some name =>
    cases hvalue : (u.elementAt n).child? .string with
    | none => rfl
    | some value =>
      simp only [text_front (found_front h (Element.child_walk hname)).2,
        text_front (found_front h (Element.child_walk hvalue)).2]

end Front

/-- What a query that is one selector lists is the selector. The longer query lists that first. -/
theorem elements_suffix (h : isSelector s = true) (t : Text) : ∃ (u : Tree) (n : Nat),
    u.kind = .selector ∧ n + u.bytes ≤ s.bytes ∧
    ∀ keep : Kind → Bool, (∀ k ∈ .logQl :: spineKinds, keep k = false) →
      (rootElement s).walk keep = (u.elementAt n).walk keep ∧
        ∃ back, (rootElement (s ++ t)).walk keep = (u.elementAt n).walk keep ++ back := by
  obtain ⟨trivia, own, ds, htokens⟩ := selector_tokens h
  set u := Tree.node .selector (fillAll ds own).1
  set n := (Token.spelled trivia).bytes
  have hwalk : ∀ keep : Kind → Bool, (∀ k ∈ .logQl :: spineKinds, keep k = false) →
      (rootElement s).walk keep = (u.elementAt n).walk keep := by
    intro keep hkeep
    rw [root_walk (hkeep .logQl (.head _)), root_children, htokens.children,
      Tree.elementsAt_behind htokens.ahead]
    exact selectorTrees_walk (hkeep _ (by decide)) (hkeep _ (by decide)) _ n
  refine ⟨u, n, rfl, ?_, fun keep hkeep => ⟨hwalk keep hkeep, ?_⟩⟩
  · have hmem : u.elementAt n ∈ (rootElement s).walk fun k => k = .selector := by
      rw [hwalk _ (by decide)]
      exact Element.mem_walk_self rfl
    have hspan := (Element.walk_span (parse s) 0 hmem).2
    rwa [Element.elementAt_span, Nat.zero_add, ← Tree.bytes_text (parse s), parse_text] at hspan
  · obtain ⟨c, more, hchildren, hspine⟩ := parse_suffix (isSelector_valid h) htokens t
    obtain ⟨back, hback⟩ := Tree.spine_walk (fun k hk => hkeep k (.tail _ hk)) rfl hspine n
    rw [root_walk (hkeep .logQl (.head _)), root_children, hchildren,
      Tree.elementsAt_behind htokens.ahead, Tree.elementsAt, Tree.spine_named rfl hspine,
      if_pos rfl, Element.walkAll, hback, List.append_assoc]
    exact ⟨_, rfl⟩

/-- Whatever follows a selector that closes, the matchers on indexed labels and the label filters
are those of the selector alone, and a service that it names is still named. -/
theorem selector_suffix (h : isSelector s = true) (t : Text) :
    (matchers (s ++ t)).filter (fun m => m.place = .indexed) = matchers s ∧
      (∀ types, (drilldown (s ++ t) types).labels = (drilldown s types).labels) ∧
      ∀ label v, serviceName? s label = some v → serviceName? (s ++ t) label = some v := by
  obtain ⟨u, n, hu, hfits, hwalk⟩ := elements_suffix h t
  obtain ⟨hown, back, hlong⟩ := hwalk (fun k => k = .matcher) (by decide)
  obtain ⟨hownFirst, backFirst, hlongFirst⟩ := hwalk (fun k => k = .selector) (by decide)
  have hkind : decide ((u.elementAt n).kind = .selector) = true := by
    rw [Element.elementAt_kind, hu]
    rfl
  have hfirst : firstSelector? s = some (u.elementAt n) := by
    rw [firstSelector?, elements_walk, hownFirst, Element.walk_self hkind]
    rfl
  have hfirstLong : firstSelector? (s ++ t) = some (u.elementAt n) := by
    rw [firstSelector?, elements_walk, hlongFirst, Element.walk_self hkind]
    rfl
  -- What the selector holds is read off the longer text as it is off the shorter.
  refine ⟨?_, fun types => ?_, fun label v hv => ?_⟩
  · rw [matchers_indexed hfirstLong, matchers, hfirst]
    simp only
    rw [elements_walk, hown]
    refine List.filterMap_congr fun e he => ?_
    obtain ⟨v, m, hm, rfl⟩ := inside_front hfits he
    exact ofElement_front hm _ t
  · have hstop : (u.elementAt n).span.stop ≤ s.bytes := by
      rw [Element.elementAt_span]
      exact hfits
    simp only [drilldown, hfirst, hfirstLong, text_front hstop]
  · rw [serviceName?, elements_walk, hown] at hv
    obtain ⟨front, e, rest, hsplit, he, hnone⟩ := List.findSome?_eq_some_iff.mp hv
    have hsame : ∀ f ∈ front ++ e :: rest,
        labelValue? (s ++ t) label f = labelValue? s label f := by
      intro f hf
      obtain ⟨w, m, hm, rfl⟩ := inside_front hfits (hsplit ▸ hf)
      exact labelValue_front hm label t
    rw [serviceName?, elements_walk, hlong, hsplit]
    refine List.findSome?_eq_some_iff.mpr ⟨front, e, rest ++ back, by simp, ?_, fun f hf => ?_⟩
    · rw [hsame e (by simp), he]
    · rw [hsame f (List.mem_append_left _ hf), hnone f hf]

def serviceText : Text := "# one\n\x7bb=\"\", a=~\x60c\x60\x7d".toList

/-- A stage, a broken one, and another selector behind a sign. -/
def suffixText : Text := " | json | a!= or \x7ba=\"d\"\x7d".toList

theorem selector_suffix_service : isSelector serviceText = true ∧
    (matchers (serviceText ++ suffixText)).filter (fun m => m.place = .indexed) =
        matchers serviceText ∧
      (∀ types, (drilldown (serviceText ++ suffixText) types).labels =
        (drilldown serviceText types).labels) ∧
      serviceName? (serviceText ++ suffixText) ['a'] = some "\x60c\x60".toList := by
  have hselector : isSelector serviceText = true := by decide +kernel
  have hname : serviceName? serviceText ['a'] = some "\x60c\x60".toList := by decide +kernel
  obtain ⟨hmatchers, hlabels, hservice⟩ := selector_suffix hselector suffixText
  exact ⟨hselector, hmatchers, hlabels, hservice _ _ hname⟩

end LogQuery
