import LogQuery.Proofs.Token.Quoted
import LogQuery.Proofs.Tree.Spot

/-! The elements of a query as pieces of its text. They begin and end between characters, they are
nested or follow one another, and those without parts are the tokens at their places. -/
namespace LogQuery

/-- An offset between two characters of a text, or at an end of it. -/
def Text.Boundary (t : Text) (n : Nat) : Prop :=
  ∃ before after, t = before ++ after ∧ before.bytes = n

namespace Token

/-- Tokens with the bytes that each of them takes, from an offset on. -/
def placedAt (start : Nat) : List Token → List (Token × Span)
  | [] => []
  | t :: ts => (t, ⟨start, start + t.text.bytes⟩) :: placedAt (start + t.text.bytes) ts

/-- What is passed over when a query is listed: blanks, comments, bare punctuation, and what is no
token of the language. -/
def silentKinds : List Kind :=
  [.whitespace, .comment, .lBrace, .rBrace, .lBracket, .rBracket, .lParen, .rParen, .comma,
    .unknown]

variable {query before after : Text} {t l : Token} {ts ls : List Token} {p : Token × Span}

theorem placedAt_append (start : Nat) (ts us : List Token) :
    placedAt start (ts ++ us) = placedAt start ts ++ placedAt (start + (spelled ts).bytes) us := by
  induction ts generalizing start with
  | nil => simp [placedAt, spelled, Text.bytes]
  | cons t ts ih => simp [placedAt, ih, spelled, Text.bytes_append, Nat.add_assoc]

theorem mem_placedAt {start : Nat} (h : p ∈ placedAt start ts) : p.1 ∈ ts := by
  induction ts generalizing start with
  | nil => cases h
  | cons t ts ih =>
    rcases List.mem_cons.mp h with rfl | h
    · exact .head _
    · exact .tail _ (ih h)

/-- A placed token is cut out of the text again at its place. -/
theorem placedAt_text (h : query = before ++ spelled ts ++ after)
    (hp : p ∈ placedAt before.bytes ts) : p.2.text query = p.1.text := by
  induction ts generalizing before with
  | nil => cases hp
  | cons t ts ih =>
    have hq : query = before ++ t.text ++ (spelled ts ++ after) := by
      simpa [spelled] using h
    rcases List.mem_cons.mp hp with rfl | hp
    · rw [Span.text, hq, Text.slice_append]
      rfl
    · rw [← Text.bytes_append] at hp
      exact ih (by simpa using hq) hp

/-- Tokens and what they are read as stand at the same places. -/
theorem placedAt_reads (start : Nat) (h : List.Forall₂ ReadAs ts ls) :
    List.Forall₂ (fun p q => p.1.ReadAs q.1 ∧ p.2 = q.2) (placedAt start ts)
      (placedAt start ls) := by
  induction h generalizing start with
  | nil => exact .nil
  | @cons t l ts ls hl _ ih =>
    obtain ⟨hx, hk⟩ := hl
    rw [placedAt, placedAt, hx]
    exact .cons ⟨⟨hx, hk⟩, rfl⟩ (ih _)

/-- A token is passed over exactly if what it is read as has no name. -/
theorem readAs_silent (ht : t ∈ lex query) (h : t.ReadAs l) :
    t.kind ∉ silentKinds ↔ l.kind.isNamed = true := by
  have hscan : ∀ k ∈ scanKinds, k ∉ silentKinds ↔ k.isNamed = true := by decide
  rcases h.2 with hk | ⟨w, hw, hk⟩
  · rw [hk]
    exact hscan t.kind (lex_kind ht)
  · have hi : t.kind = .identifier := by
      simp only [spells, Bool.and_eq_true, decide_eq_true_eq] at hw
      exact hw.1
    rw [hi, hk]
    exact ⟨fun _ => rfl, fun _ => by decide⟩

end Token

namespace Element

/-- An element that covers the text below a tree, between two characters of the query. -/
structure Covers (query : Text) (e : Element) (t : Tree) : Prop where
  kind : e.kind = t.kind
  ordered : e.span.start ≤ e.span.stop
  fits : e.span.stop ≤ query.bytes
  starts : query.Boundary e.span.start
  stops : query.Boundary e.span.stop
  text : e.span.text query = Token.spelled t.leaves

/-- The later of two elements lies inside the earlier one or behind it. -/
def Precedes (e f : Element) : Prop :=
  e.span.contains f.span = true ∨ e.span.stop ≤ f.span.start

/-- An element for a placed token, of the kind that the token is read as. -/
def Shows (query : Text) (e : Element) (p : Token × Span) : Prop :=
  e.span = p.2 ∧ e.span.text query = p.1.text ∧ p.1.ReadAs ⟨e.kind, e.span.text query⟩

variable {query before : Text} {t : Tree} {e f : Element} {keep : Kind → Bool}

theorem at_covers (h : At query before t e) : Covers query e t := by
  have hstart := at_start h
  have hstop := at_stop h
  obtain ⟨after, ha⟩ := h.fits
  refine ⟨?_, ?_, ?_, ?_, ?_, ?_⟩
  · rw [h.element, elementAt_kind]
  · rw [hstart, hstop, Text.bytes_append]
    exact Nat.le_add_right _ _
  · rw [hstop, ha, Text.bytes_append (before ++ t.text)]
    exact Nat.le_add_right _ _
  · exact ⟨before, t.text ++ after, by rw [ha, List.append_assoc], hstart.symm⟩
  · exact ⟨before ++ t.text, after, ha, hstop.symm⟩
  · rw [at_text h, Tree.text_leaves]
    rfl

mutual

/-- A walk gives an element before what is in it, and that before what is behind it. -/
theorem walk_precedes (t : Tree) (start : Nat) :
    ((t.elementAt start).walk keep).Pairwise Precedes := by
  cases t with
  | leaf k x =>
    rw [Tree.elementAt, walk, walkAll, List.append_nil]
    split
    · exact List.pairwise_singleton _ _
    · exact .nil
  | node k cs =>
    have hcs : (walkAll keep (Tree.elementsAt start cs)).Pairwise Precedes :=
      walkAll_precedes cs start
    rw [Tree.elementAt, walk]
    split
    · rw [List.singleton_append, List.pairwise_cons]
      refine ⟨fun f hf => Or.inl ?_, hcs⟩
      have hstart := walkAll_span cs start hf
      have hstop := (walk_span (.node k cs) start (mem_walk_child hf)).2
      exact Bool.and_eq_true_iff.mpr ⟨decide_eq_true hstart, decide_eq_true hstop⟩
    · exact hcs

theorem walkAll_precedes (cs : List Tree) (start : Nat) :
    (walkAll keep (Tree.elementsAt start cs)).Pairwise Precedes := by
  cases cs with
  | nil => exact .nil
  | cons c cs =>
    have hcs : (walkAll keep (Tree.elementsAt (start + c.bytes) cs)).Pairwise Precedes :=
      walkAll_precedes cs _
    rw [Tree.elementsAt]
    split
    · rw [walkAll, List.pairwise_append]
      refine ⟨walk_precedes c start, hcs, fun e he f hf => Or.inr ?_⟩
      exact (walk_span c start he).2.trans (walkAll_span cs _ hf)
    · exact hcs

end

mutual

/-- The elements of tokens that a walk gives are those that have a name. -/
theorem walk_tokens (t : Tree) (start : Nat) (h : Tree.Proper [t]) (ht : t.kind.isNamed = true)
    (hl : ∀ l ∈ t.leaves, l.kind.isToken = true) :
    (((t.elementAt start).walk fun _ => true).filter fun e => e.kind.isToken) =
      ((Token.placedAt start t.leaves).filter fun p => p.1.kind.isNamed).map fun p =>
        mk p.1.kind p.2 [] := by
  cases t with
  | leaf k x =>
    have hk : k.isToken = true := hl ⟨k, x⟩ (.head _)
    have hn : k.isNamed = true := ht
    simp [Tree.elementAt, walk, walkAll, Tree.leaves, Token.placedAt, kind, hk, hn]
  | node k cs =>
    have hk : k.isToken = false := by simp [Kind.isToken, Tree.proper_head h]
    have hcs := walkAll_tokens cs start (Tree.proper_inside h) hl
    rw [Tree.elementAt, walk, if_pos rfl, List.singleton_append, List.filter_cons]
    simpa [kind, hk, Tree.leaves] using hcs

theorem walkAll_tokens (cs : List Tree) (start : Nat) (h : Tree.Proper cs)
    (hl : ∀ l ∈ Tree.leavesAll cs, l.kind.isToken = true) :
    ((walkAll (fun _ => true) (Tree.elementsAt start cs)).filter fun e => e.kind.isToken) =
      ((Token.placedAt start (Tree.leavesAll cs)).filter fun p => p.1.kind.isNamed).map fun p =>
        mk p.1.kind p.2 [] := by
  cases cs with
  | nil => rfl
  | cons c cs =>
    have hmore := walkAll_tokens cs (start + c.bytes) (Tree.proper_tail h)
      fun l hm => hl l (List.mem_append_right _ hm)
    rw [Tree.elementsAt, Tree.leavesAll, Token.placedAt_append, leaves_bytes, List.filter_append,
      List.map_append, ← hmore]
    split
    · next hn =>
      have hc := walk_tokens c start (Tree.proper_alone h) hn
        fun l hm => hl l (List.mem_append_left _ hm)
      rw [walkAll, List.filter_append, hc]
    · next hn =>
      -- what has no name is a leaf, so that nothing is lost with it
      obtain ⟨k, x, rfl, hk⟩ := Tree.leaf_of_not_named h hn
      simp [Tree.leaves, Token.placedAt, hk]

end

/-- Placed tokens are shown by the elements of what they are read as. -/
theorem shows_of_reads {ps qs : List (Token × Span)}
    (h : List.Forall₂ (fun p q => p.1.ReadAs q.1 ∧ p.2 = q.2) ps qs)
    (hp : ∀ p ∈ ps, p.1 ∈ Token.lex query ∧ p.2.text query = p.1.text) :
    List.Forall₂ (Shows query)
      ((qs.filter fun q => q.1.kind.isNamed).map fun q => mk q.1.kind q.2 [])
      (ps.filter fun p => p.1.kind ∉ Token.silentKinds) := by
  induction h with
  | nil => exact .nil
  | @cons p q ps qs hpq _ ih =>
    obtain ⟨⟨ht, htext⟩, hmore⟩ := List.forall_mem_cons.mp hp
    obtain ⟨hread, hspan⟩ := hpq
    have hshow : Shows query (mk q.1.kind q.2 []) p := by
      rw [hspan] at htext
      refine ⟨hspan.symm, htext, ?_⟩
      show p.1.ReadAs ⟨q.1.kind, q.2.text query⟩
      rw [htext, ← hread.1]
      exact hread
    have hnamed := Token.readAs_silent ht hread
    rw [List.filter_cons, List.filter_cons]
    by_cases hn : q.1.kind.isNamed = true
    · rw [if_pos hn, if_pos (decide_eq_true (hnamed.mpr hn))]
      exact .cons hshow (ih hmore)
    · rw [if_neg hn, if_neg (by simpa using fun hs => hn (hnamed.mp hs))]
      exact ih hmore

end Element

variable {query : Text} {e : Element}

/-- The elements of tokens in a query are the tokens of the language at their places. -/
theorem elements_tokens (query : Text) :
    List.Forall₂ (Element.Shows query)
      ((elements query none).filter fun e => e.kind.isToken)
      ((Token.placedAt 0 (Token.lex query)).filter fun p => p.1.kind ∉ Token.silentKinds) := by
  have hl : ∀ l ∈ (parse query).leaves, l.kind.isToken = true := by
    intro l hl
    simp [Kind.isToken, leaf_kind hl]
  have hw := Element.walk_tokens (parse query) 0 (root_proper query) rfl hl
  have hreads := Token.placedAt_reads 0 (parse_reads query)
  have hlex : query = [] ++ Token.spelled (Token.lex query) ++ [] := by simp [Token.spelled_lex]
  have htext : ∀ p ∈ Token.placedAt 0 (Token.lex query), p.2.text query = p.1.text :=
    fun p hp => @Token.placedAt_text query [] [] _ p hlex hp
  have hshow := Element.shows_of_reads hreads fun p hp => ⟨Token.mem_placedAt hp, htext p hp⟩
  rw [← hw] at hshow
  exact hshow

/-- A string is listed with its quotes, and unquoted it is what stands between them. -/
theorem elements_quoted (h : e ∈ elements query none) (hk : e.kind = .string) :
    ∃ q ∈ Token.quotes, e.span.text query = q :: (e.span.unquoted query ++ [q]) := by
  obtain ⟨before, u, after, hw, -, rfl⟩ := Element.walk_within (parse query) 0 h
  rw [Element.elementAt_kind] at hk
  rw [parse_children] at hw
  cases hw with
  | head => cases hk
  | tail _ hw => cases hw
  | inside _ _ hw =>
    cases u with
    | node k cs =>
      obtain rfl : k = .string := hk
      exact absurd (within_node hw) (by decide)
    | leaf k x =>
      obtain rfl : k = .string := hk
      have hl := leaf_within_root hw (List.mem_singleton_self _)
      have hat := within_at hw
      rw [Nat.zero_add, Element.at_text hat, at_value hat (leaf_quoted hl rfl)]
      exact leaf_quoted hl rfl

/-- The elements of a query cover the named parts of its tree, each of them between two characters
of the query and with exactly the text of its leaves. Of two elements the later one lies inside the
earlier one or behind it. Those of tokens are the tokens of the query other than the silent ones, in
order, at their bytes. A string is its unquoted text between two quotes of one sort. -/
theorem positions_slice (query : Text) :
    List.Forall₂ (Element.Covers query) (elements query none)
        ((parse query).parts fun _ => true) ∧
      (elements query none).Pairwise Element.Precedes ∧
      List.Forall₂ (Element.Shows query)
        ((elements query none).filter fun e => e.kind.isToken)
        ((Token.placedAt 0 (Token.lex query)).filter fun p => p.1.kind ∉ Token.silentKinds) ∧
      ∀ e ∈ elements query none, e.kind = .string →
        ∃ q ∈ Token.quotes, e.span.text query = q :: (e.span.unquoted query ++ [q]) := by
  have hroot : query = [] ++ (parse query).text ++ [] := by simp [parse_text]
  have hparts : List.Forall₂ (Element.Located query) (elements query none)
      ((parse query).parts fun _ => true) := Element.walk_located (parse query) hroot
  refine ⟨?_, ?_, elements_tokens query, fun e he hk => elements_quoted he hk⟩
  · exact hparts.imp fun e t h => Element.at_covers h.choose_spec
  · exact Element.walk_precedes (parse query) 0

/-- A string that is not closed follows a value of two bytes a character. -/
def accentedText : Text := "\x7ba=\"é\"\x7d |= \"x".toList

/-- The value takes two bytes between its quotes. -/
theorem positions_slice_accented :
    ∃ e ∈ elements accentedText none, e.kind = .string ∧ e.span = ⟨3, 7⟩ ∧
      ∃ q ∈ Token.quotes,
        e.span.text accentedText = q :: (e.span.unquoted accentedText ++ [q]) := by
  have hstring : ∃ e ∈ elements accentedText none, e.kind = .string ∧ e.span = ⟨3, 7⟩ := by
    decide +kernel
  obtain ⟨e, he, hk, hs⟩ := hstring
  exact ⟨e, he, hk, hs, (positions_slice accentedText).2.2.2 e he hk⟩

end LogQuery
