import LogQuery.Proofs.Matchers
import LogQuery.Proofs.Tree.Airy

/-! What stands between the name of a matcher and its value is read as the operator, with the blanks
and comments in it. -/
namespace LogQuery

open LogQuery.Tree (Within Spot leavesAll fillAll tokens)

namespace Tree

variable {cs : List Tree} {x : Text} {last : List Token}

/-- There are blanks or comments in the tree. -/
def spaced (t : Tree) : Bool := t.leaves.any Token.isTrivia

/-- The tokens of a matcher behind its name and ahead of its value, or all behind its name if it has
none. -/
def between (t : Tree) : List Token := t.leaves.tail.takeWhile fun l => l.kind ≠ .string

/-- Filled trees that end with a leaf end with it too. -/
theorem fillAll_last (cs : List Tree) (k : Kind) (y : Text) (ts : List Token) :
    ∃ fs, (fillAll (cs ++ [leaf k y]) ts).1 = fs ++ [leaf k y] := by
  rw [fillAll_append]
  refine ⟨(fillAll cs ts).1 ++ ((fillAll cs ts).2.takeWhile Token.isTrivia).map ofToken, ?_⟩
  simp [fillAll, fill]

/-- What a matcher is made of: a name, trees without strings, and a string or nothing. -/
structure MatcherLine (gs : List Tree) (x : Text) (cs : List Tree) (last : List Token) : Prop where
  children : gs = leaf .identifier x :: (cs ++ last.map ofToken)
  plain : tokens .string cs = []
  last : last = [] ∨ ∃ y, last = [⟨.string, y⟩]

variable {gs : List Tree}

theorem matcherLine_leaves (h : MatcherLine gs x cs last) (k : Kind) :
    (node k gs).leaves = ⟨.identifier, x⟩ :: (leavesAll cs ++ last) := by
  rw [h.children, leaves, leavesAll, leavesAll_append, leavesAll_ofToken]
  rfl

theorem matcherLine_between (h : MatcherLine gs x cs last) (k : Kind) :
    (node k gs).between = leavesAll cs := by
  have hplain : ∀ l ∈ leavesAll cs, l.kind ≠ .string := by
    simpa [tokens, List.filter_eq_nil_iff] using h.plain
  have hlast : last.takeWhile (fun l => l.kind ≠ .string) = [] := by
    rcases h.last with rfl | ⟨y, rfl⟩ <;> rfl
  rw [between, matcherLine_leaves h, List.tail_cons,
    List.takeWhile_append_of_pos (by simpa using hplain), hlast, List.append_nil]

end Tree

namespace Token

/-- A character that blanks and comments begin with. -/
def opensTrivia (c : Char) : Bool := isBlank c || c = '#'

theorem scan_trivia {c : Char} {cs : Text} (h : (scan c cs).kind.isTrivia = true) :
    opensTrivia c = true := by
  unfold scan at h
  split_ifs at h with hb hn hd
  · simp [opensTrivia, hb]
  · cases h
  · have hnone : ∀ k ∈ [Kind.number, .bytes, .duration, .unknown], k.isTrivia = false := by decide
    exact absurd h (Bool.eq_false_iff.mp (hnone _ (scanNumber_kind (c :: cs))))
  · have hnone : ∀ k ∈ [Kind.string, .unknown], k.isTrivia = false := by decide
    split at h
    case h_1 => rfl
    case h_2 => exact absurd h (Bool.eq_false_iff.mp (hnone _ (scanQuoted_kind cs)))
    case h_3 => exact absurd h (Bool.eq_false_iff.mp (hnone _ (scanRaw_kind cs)))
    case h_4 => split at h <;> cases h
    all_goals cases h

theorem trivia_text {t : Token} {cs : Text} (h : t ∈ lex cs) (ht : t.isTrivia = true) :
    ∃ c ∈ t.text, opensTrivia c = true := by
  obtain ⟨c, ds, rfl⟩ := mem_lexAfter h
  exact ⟨c, .head _, scan_trivia ht⟩

end Token

theorem Element.outermostAll_append (k : Kind) (es fs : List Element) :
    outermostAll k (es ++ fs) = outermostAll k es ++ outermostAll k fs := by
  induction es with
  | nil => rfl
  | cons e es ih => rw [List.cons_append, outermostAll, ih, outermostAll, List.append_assoc]

variable {query : Text} {before after : List Token} {gs : List Tree} {e name : Element}

theorem matcher_line (h : Within (parse query).children before (.node .matcher gs) after) :
    ∃ x cs last, Tree.MatcherLine gs x cs last := by
  obtain ⟨c, x, rest, hgs⟩ := matcher_name h
  obtain ⟨ds, ts, hds, name, op, stray, value, hm⟩ := matcher_filled h
  have hstrings : tokens .string gs = tokens .string [value] := by
    rw [hds, Tree.tokens_fillAll rfl, Tree.matcherParts_tokens hm (by decide)]
    rfl
  rcases hm.value with ⟨k, hk, y, rfl⟩ | rfl
  · obtain rfl := List.mem_singleton.mp hk
    have hchildren : ds = (.leaf .identifier name :: op :: stray) ++ [.leaf .string y] :=
      hm.children
    obtain ⟨fs, hfs⟩ := Tree.fillAll_last (.leaf .identifier name :: op :: stray) .string y ts
    rw [← hchildren, ← hds, hgs] at hfs
    cases fs with
    | nil => cases hfs
    | cons f fs =>
      obtain ⟨rfl, rfl⟩ := List.cons.inj hfs
      refine ⟨c :: x, fs, [⟨.string, y⟩], hgs, ?_, Or.inr ⟨y, rfl⟩⟩
      rw [hgs] at hstrings
      have happend : tokens .string fs ++ tokens .string [.leaf .string y] =
          tokens .string [.leaf .string y] := by
        rw [← Tree.tokens_append]
        exact hstrings
      exact List.append_left_eq_self.mp happend
  · refine ⟨c :: x, rest, [], by simpa using hgs, ?_, Or.inl rfl⟩
    rw [hgs] at hstrings
    exact hstrings

theorem Tree.matcherLine_element {x : Text} {cs : List Tree} {last : List Token}
    (h : Tree.MatcherLine gs x cs last) (start : Nat) :
    (Tree.node .matcher gs).elementAt start = .mk .matcher ⟨start, start + Tree.bytesAll gs⟩
      (.mk .identifier ⟨start, start + Text.bytes x⟩ [] ::
        (Tree.elementsAt (start + Text.bytes x) cs ++
          Tree.elementsAt (start + Text.bytes x + Tree.bytesAll cs) (last.map .ofToken))) := by
  rw [Tree.elementAt, h.children, Tree.elementsAt, Tree.elementsAt_append]
  rfl

/-- No element is found where there are no tokens of its kind. -/
theorem Element.outermostAll_plain {k : Kind} {cs : List Tree} {front back : Text}
    (hk : k.isNamed = true) (hn : k.isNode = false) (hproper : Tree.Proper cs)
    (hplain : tokens k cs = []) (hq : query = front ++ Tree.textAll cs ++ back) :
    outermostAll k (Tree.elementsAt front.bytes cs) = [] := by
  have hl := @outermostAll_located query k cs _ _ hq
  rw [Tree.outermostAll_tokens hk hn cs hproper, hplain] at hl
  exact List.forall₂_nil_right_iff.mp hl

/-- What is read between the name of a matcher and its value, or up to its end, is what stands
there. -/
theorem matcher_slice (h : Within (parse query).children before (.node .matcher gs) after)
    (ha : Element.At query (Token.spelled before) (.node .matcher gs) e)
    (hname : e.first? .identifier = some name) :
    query.slice? name.span.stop
        (((e.outermost .string).head?.map (·.span.start)).getD e.span.stop) =
      some (Token.spelled (Tree.node .matcher gs).between) := by
  obtain ⟨x, cs, last, hline⟩ := matcher_line h
  obtain ⟨rest, hq⟩ := ha.fits
  set start := (Token.spelled before).bytes
  have htext : query = (Token.spelled before ++ x) ++ Tree.textAll cs ++
      (Tree.textAll (last.map .ofToken) ++ rest) := by
    rw [hq, hline.children]
    simp [Tree.text, Tree.textAll, Tree.textAll_leaves, Tree.leavesAll_append]
  have hfront : (Token.spelled before ++ x).bytes = start + Text.bytes x := Text.bytes_append _ _
  have hnone : Element.outermostAll .string (Tree.elementsAt (start + Text.bytes x) cs) = [] := by
    rw [← hfront]
    refine Element.outermostAll_plain rfl rfl ?_ hline.plain htext
    have hgs := Tree.proper_inside (Tree.proper_within (parse_proper query) h)
    rw [hline.children] at hgs
    exact fun _ _ _ _ hw => Tree.proper_tail hgs _ _ _ _ (Tree.within_append_left hw _)
  have he := ha.element.trans (Tree.matcherLine_element hline start)
  have hspan : name.span = ⟨start, start + Text.bytes x⟩ := by
    rw [he] at hname
    cases hname
    rfl
  -- The value begins where the trees without strings end, or the matcher ends there.
  have hend : ((e.outermost .string).head?.map (·.span.start)).getD e.span.stop =
      start + Text.bytes x + Tree.bytesAll cs := by
    rw [he, Element.outermost, if_neg (by decide), Element.outermostAll,
      Element.outermostAll_append, hnone]
    rcases hline.last with rfl | ⟨y, rfl⟩
    · rw [hline.children]
      simp [Element.outermost, Element.outermostAll, Element.span, Tree.elementsAt, Tree.bytesAll,
        Tree.bytes, Nat.add_assoc]
    · simp [Element.outermost, Element.outermostAll, Element.span, Tree.elementsAt, Tree.elementAt,
        Tree.ofToken, Tree.kind, Kind.isNamed, Kind.isTrivia, Kind.isPunctuation]
  have hslice := Text.slice_append (Token.spelled before ++ x) (Tree.textAll cs)
    (Tree.textAll (last.map .ofToken) ++ rest)
  rw [← htext, hfront, Tree.bytes_textAll] at hslice
  rw [hspan, hend, Tree.matcherLine_between hline, hslice, Tree.textAll_leaves]
  rfl

theorem leaf_trivia {l : Token} (h : l ∈ (parse query).leaves) (ht : l.isTrivia = true) :
    ∃ c ∈ l.text, Token.opensTrivia c = true := by
  obtain ⟨t, hlex, hr⟩ := reads_token (parse_reads query) h
  rw [hr.1]
  exact Token.trivia_text hlex (by rwa [← Tree.readAs_trivia hr])

/-- No operator holds a blank, or begins a comment. -/
theorem Comparison.symbol_trivia (op : Comparison) :
    ∀ c ∈ op.symbol.toList, Token.opensTrivia c = false := by
  cases op <;> simp [symbol, Token.opensTrivia, Token.isBlank]

section Matcher

variable (h : Within (parse query).children before (.node .matcher gs) after)

include h

/-- The blanks and comments in a matcher stand ahead of its value. -/
theorem matcher_spaced (hs : (Tree.node .matcher gs).spaced = true) :
    ∃ l ∈ (Tree.node .matcher gs).between, l.isTrivia = true := by
  obtain ⟨x, cs, last, hline⟩ := matcher_line h
  obtain ⟨l, hl, ht⟩ := List.any_eq_true.mp hs
  refine ⟨l, ?_, ht⟩
  rw [Tree.matcherLine_between hline]
  rw [Tree.matcherLine_leaves hline, List.mem_cons, List.mem_append] at hl
  rcases hl with rfl | hl | hl
  · cases ht
  · exact hl
  · rcases hline.last with rfl | ⟨y, rfl⟩
    · cases hl
    · obtain rfl := List.mem_singleton.mp hl
      cases ht

/-- With a blank or a comment in it, what stands between name and value is no operator. -/
theorem between_symbol (hs : (Tree.node .matcher gs).spaced = true) (op : Comparison) :
    Token.spelled (Tree.node .matcher gs).between ≠ op.symbol.toList := by
  obtain ⟨l, hl, ht⟩ := matcher_spaced h hs
  have hleaf : l ∈ (Tree.node .matcher gs).leaves :=
    List.mem_of_mem_tail ((List.takeWhile_sublist _).subset hl)
  obtain ⟨c, hc, hopens⟩ := leaf_trivia (leaf_within_root h hleaf) ht
  intro he
  have hc : c ∈ op.symbol.toList := he ▸ List.mem_flatMap.mpr ⟨l, hl, hc⟩
  exact absurd hopens (Bool.eq_false_iff.mp (op.symbol_trivia c hc))

variable (ha : Element.At query (Token.spelled before) (.node .matcher gs) e)

include ha

/-- The operator of a matcher is what stands between its name and its value. -/
theorem ofElement_between {selector : Span} {m : Matcher}
    (hm : Matcher.ofElement? query selector e = some m) :
    m.op = .ofText (Token.spelled (Tree.node .matcher gs).between) := by
  obtain ⟨name, hname, rfl⟩ := Option.map_eq_some_iff.mp hm
  simp only [matcher_slice h ha hname, Option.getD_some]

/-- A matcher with a blank or a comment in it does not count as a plain `=`. -/
theorem ofElement_spaced {selector : Span} {m : Matcher}
    (hm : Matcher.ofElement? query selector e = some m)
    (hs : (Tree.node .matcher gs).spaced = true) : m.op = .notEqual := by
  have hne : Token.spelled (Tree.node .matcher gs).between ≠ ['='] := between_symbol h hs .equal
  rw [ofElement_between h ha hm, Matcher.Op.ofText, if_neg hne]

/-- Such a matcher gives no label filter. -/
theorem ofMatcher_spaced (he : e ∈ elements query (some [.matcher]))
    (hs : (Tree.node .matcher gs).spaced = true) : LabelFilter.ofMatcher? query e = none := by
  by_contra hne
  obtain ⟨f, hf⟩ := Option.ne_none_iff_exists'.mp hne
  obtain ⟨name, string, hname, hstring, hslice, -⟩ := (written_iff he f).mp hf
  have hbetween := matcher_slice h ha hname
  rw [show (e.outermost .string).head? = some string from hstring, Option.map_some,
    Option.getD_some, hslice] at hbetween
  exact between_symbol h hs f.operator (Option.some.inj hbetween).symm

end Matcher

end LogQuery
