import LogQuery.Proofs.Drilldown.Parsed
import LogQuery.Proofs.Element.Located

/-! The element of each clause of a drilldown is read back as the filter of the clause. -/
namespace LogQuery

open Kind (mark)
open Element (At Located at_of_eq at_text at_between at_unquoted first_some
  first_isSome find_located)

variable {query before : Text} {e : Element} {t : Tree}

/-- Where a raw string stands, its value is what is unquoted. -/
theorem raw_unquoted {v : RawText} (h : At query before (.ofToken v.token) e) :
    e.span.unquoted query = v.text := at_unquoted h rfl rfl rfl

theorem matching_text (c : LabelClause) :
    c.matching.tree.text = c.name.text ++ (mark c.op.kind).text ++ c.value.token.text := by
  show Tree.textAll [.ofToken c.name.token, .ofToken (mark c.op.kind), .ofToken c.value.token] = _
  simp [Tree.textAll, Tree.ofToken, Tree.text, Lexeme.token]

/-- The name and the value of a label stand on both sides of its operator. -/
theorem matching_parts (c : LabelClause) (h : At query before c.matching.tree e) :
    ∃ name string, e.first? .identifier = some name ∧ e.first? .string = some string ∧
      At query before (.ofToken c.name.token) name ∧
      At query (before ++ c.name.text ++ (mark c.op.kind).text) (.ofToken c.value.token)
        string := by
  obtain ⟨rfl, after, ha⟩ := h
  rw [matching_text] at ha
  have hn : query = before ++ (Tree.ofToken c.name.token).text ++
      ((mark c.op.kind).text ++ c.value.token.text ++ after) := by
    simp [ha, Tree.ofToken, Tree.text, Lexeme.token]
  have hs : query = (before ++ c.name.text ++ (mark c.op.kind).text) ++
      (Tree.ofToken c.value.token).text ++ after := by
    simp [ha, Tree.ofToken, Tree.text]
  refine ⟨_, _, ?_, ?_, at_of_eq hn, at_of_eq hs⟩
  · obtain ⟨name, op, value, hop, _⟩ := c
    cases op with
    | equal | notEqual | regexEqual | regexNotEqual => rfl
    | greater | less | greaterEqual | lessEqual => cases hop
  · rw [Text.bytes_append, Text.bytes_append]
    obtain ⟨name, op, value, hop, _⟩ := c
    cases op with
    | equal | notEqual | regexEqual | regexNotEqual => rfl
    | greater | less | greaterEqual | lessEqual => cases hop

theorem label_given (c : LabelClause) (h : At query before c.matching.tree e) :
    LabelFilter.ofMatcher? query e = some c.filter := by
  obtain ⟨name, string, hname, hstring, hn, hs⟩ := matching_parts c h
  have hop : (query.slice? name.span.stop string.span.start).map Comparison.ofText =
      some (.ok c.op) := by
    rw [at_between hn hs, Option.map_some, Comparison.mark_text, Comparison.ofText_symbol]
  have hkey : name.span.text query = c.name.text := at_text hn
  have hvalue := raw_unquoted hs
  have hfilled : c.value.text.isEmpty = false := by
    simpa using c.filled
  have hnamed : c.name.text.isEmpty = false := by
    obtain ⟨d, ds, hd⟩ := Token.whole_text (identifier_whole c.name)
    have hd' : c.name.text = d :: ds := hd
    rw [hd']
    rfl
  rw [LabelFilter.ofMatcher?, hname, hstring]
  simp only [hop, hkey, hvalue, hfilled, hnamed, c.matches_value]
  rfl

/-! Lines. -/

theorem line_operator (c : LineClause) (h : At query before c.tree e) :
    LineEntry.operator? e = some (.line c.op) := by
  rw [LineEntry.operator?, find_located _ h]
  obtain ⟨op, value, _⟩ := c
  cases op <;> rfl

theorem line_strings (c : LineClause) (h : At query before c.tree e) :
    ∃ string, LineEntry.strings e = [string] ∧
      At query (before ++ (mark c.op.kind).text ++ " ".toList) (.ofToken c.value.token) string := by
  obtain ⟨rfl, after, ha⟩ := h
  have hs : query = (before ++ (mark c.op.kind).text ++ " ".toList) ++
      (Tree.ofToken c.value.token).text ++ after := by
    simp [ha, LineClause.tree, Tree.text, Tree.textAll, Tree.ofToken, Tree.blank, Token.blank]
  refine ⟨_, ?_, at_of_eq hs⟩
  rw [Text.bytes_append, Text.bytes_append]
  obtain ⟨op, value, _⟩ := c
  cases op <;> rfl

/-- A value in backticks is taken as it stands. -/
theorem line_given (c : LineClause) (number : Nat) (h : At query before c.tree e) :
    LineEntry.ofFilter query e number =
      [.line (LineEntry.lineFilter c.value.text ['\x60'] number c.op)] := by
  obtain ⟨string, hstrings, hs⟩ := line_strings c h
  have hvalue := raw_unquoted hs
  have hquote := Element.at_first hs rfl rfl
  have hfilled : c.value.text.isEmpty = false := by
    simpa using c.filled
  have hgive : LineEntry.ofString? query e number string =
      some (.line (LineEntry.lineFilter c.value.text ['\x60'] number c.op)) := by
    rw [LineEntry.ofString?, line_operator c h]
    simp only [hvalue, hfilled, hquote]
    rfl
  rw [LineEntry.ofFilter, hstrings, List.filterMap_cons_some hgive]
  rfl

theorem lineFilter_gives (c : LineClause) (number : Nat) :
    c.Gives number (LineEntry.lineFilter c.value.text ['\x60'] number c.op) := by
  have hplain : LineEntry.unescape ['\x60'] c.op c.value.text = c.value.text :=
    if_pos (by decide)
  by_cases h : c.op.isRegex = true ∧ LineEntry.caseMark <:+: c.value.text
  · obtain ⟨left, right, hvalue, hremoved, hleft⟩ := Text.removeFirst_spec h.2
    have hin := (Text.hasInfix_iff LineEntry.caseMark c.value.text).mpr h.2
    rw [LineEntry.lineFilter, hplain, h.1, hin, hremoved]
    exact .insensitive left right h.1 hvalue hleft
  · have hn : ¬ (c.op.isRegex && LineEntry.caseMark.hasInfix c.value.text) = true := by
      rwa [Bool.and_eq_true, Text.hasInfix_iff]
    simp only [LineEntry.lineFilter, hplain, if_neg hn]
    exact .sensitive h

/-! Fields. -/

/-- A mark without a blank is in front of a text with a blank only if it is in front of the part
before the blank. -/
theorem prefix_of_blank {part left right : Text} (hb : ' ' ∉ part)
    (h : part <+: left ++ ' ' :: right) : part <+: left := by
  induction left generalizing part with
  | nil =>
    cases part with
    | nil => exact List.nil_prefix
    | cons d part =>
      rw [List.nil_append, List.cons_prefix_cons] at h
      exact (hb (h.1 ▸ .head _)).elim
  | cons d left ih =>
    cases part with
    | nil => exact List.nil_prefix
    | cons x part =>
      rw [List.cons_append, List.cons_prefix_cons] at h
      rw [List.mem_cons, not_or] at hb
      exact List.cons_prefix_cons.mpr ⟨h.1, ih hb.2 h.2⟩

/-- The node around a test shows in its kind alone. -/
theorem testTree_text (c : FieldClause) (cs : List Tree) :
    (c.testTree cs).text = Tree.textAll cs := by
  rcases c.testTree_cases with hc | hc | hc | hc <;> rw [hc]
  · rfl
  · rfl
  · exact List.append_nil _
  · exact List.append_nil _

theorem filterTree_text (c : FieldClause) : c.filterTree.text = c.body := by
  simp [FieldClause.filterTree, Tree.text, Tree.textAll, testTree_text, Tree.ofToken, Tree.blank,
    Token.blank, FieldClause.body, Lexeme.token, ← Comparison.mark_text]

theorem field_checked (c : FieldClause) (h : At query before c.filterTree e) :
    FieldEntry.isErrorCheck query e = false := by
  have hp : ¬ "__error__".toList <+: c.body := by
    intro hp
    rw [FieldClause.body, List.append_assoc, List.append_assoc, List.append_assoc] at hp
    exact c.no_error (prefix_of_blank (by decide) hp)
  rw [FieldEntry.isErrorCheck, at_text h, filterTree_text]
  exact Bool.eq_false_iff.mpr fun hb => hp (List.isPrefixOf_iff_prefix.mp hb)

theorem field_name (c : FieldClause) :
    (c.filterTree.outermost .identifier).head? = some (.ofToken c.name.token) := by
  rw [FieldClause.filterTree]
  rcases c.testTree_cases with hc | hc | hc | hc <;> rw [hc] <;> rfl

theorem field_make (c : FieldClause) (types : LabelTypes) {name : Element}
    (hname : name.span.text query = c.name.text) {parser : Option FieldParser}
    (hparser : FieldEntry.parserBefore? query e.span.stop = parser) :
    FieldEntry.make query types e name c.test.op c.test.value =
      .field (c.filter types parser) := by
  rw [FieldEntry.make, hname, hparser]
  cases parser <;> rfl

/-- A test with a string holds that string and the sign of its operator, and no other. -/
theorem matching_filter (c : FieldClause) {op : Comparison} {v : RawText}
    {hop : op.isMatcher = true} (hc : c.test = .matching op v hop) :
    (c.filterTree.outermost .string).head? = some (.ofToken v.token) ∧
      (FieldEntry.stringOperators.find? fun (k, _) =>
        (c.filterTree.outermost k).head?.isSome).map Prod.snd = some op := by
  obtain ⟨name, test, _, _⟩ := c
  obtain rfl := hc
  cases op with
  | equal | notEqual | regexEqual | regexNotEqual => exact ⟨rfl, rfl⟩
  | greater | less | greaterEqual | lessEqual => cases hop

/-- A test with an amount holds no string. -/
theorem amount_filter (c : FieldClause) {op : Comparison} {unit : Sign Grammar.unitKinds}
    {x : Lexeme unit.val} {hop : op.isMatcher = false} (hc : c.test = .amount op unit x hop) :
    (c.filterTree.outermost .string).head? = none ∧
      ([.number, .duration, .bytes].findSome? fun k => (c.filterTree.outermost k).head?) =
        some (.ofToken x.token) ∧
      (FieldEntry.numberOperators.find? fun (k, _) =>
        (c.filterTree.outermost k).head?.isSome).map Prod.snd = some op := by
  obtain ⟨name, test, _, _⟩ := c
  obtain rfl := hc
  obtain ⟨k, hk⟩ := unit
  simp only [Grammar.unitKinds, List.mem_cons, List.not_mem_nil, or_false] at hk
  cases op with
  | equal | notEqual | regexEqual | regexNotEqual => cases hop
  | greater | less | greaterEqual | lessEqual =>
    rcases hk with rfl | rfl | rfl <;> exact ⟨rfl, rfl, rfl⟩

theorem field_given (c : FieldClause) (types : LabelTypes) {parser : Option FieldParser}
    (h : At query before c.filterTree e)
    (hparser : FieldEntry.parserBefore? query e.span.stop = parser) :
    FieldEntry.ofFilter? query types e = some (.field (c.filter types parser)) := by
  obtain ⟨name, hname, _, hn⟩ := first_some h (field_name c)
  have hmake := field_make c types (at_text hn) hparser
  cases hc : c.test with
  | matching op v hop =>
    obtain ⟨hfirst, hfound⟩ := matching_filter c hc
    obtain ⟨string, hstring, _, hs⟩ := first_some h hfirst
    have hoperator : FieldEntry.operator? FieldEntry.stringOperators e = some op := by
      rw [FieldEntry.operator?, find_located _ h, hfound]
    rw [hc] at hmake
    rw [FieldEntry.ofFilter?, hname, hstring]
    simp only [hoperator, raw_unquoted hs, Option.map_some]
    exact congrArg some hmake
  | amount op unit x hop =>
    obtain ⟨hstring, hfirst, hfound⟩ := amount_filter c hc
    have hnone : e.first? .string = none := by
      have hs := first_isSome (k := .string) h
      rw [hstring] at hs
      exact Option.not_isSome_iff_eq_none.mp (by simp [hs])
    obtain ⟨value, hvalue, _, hv⟩ := Element.located_some (Element.firstOf_located _ h) hfirst
    have htext : value.span.text query = x.text := at_text hv
    have hoperator : FieldEntry.operator? FieldEntry.numberOperators e = some op := by
      rw [FieldEntry.operator?, find_located _ h, hfound]
    rw [hc] at hmake
    rw [FieldEntry.ofFilter?, hname, hnone]
    simp only [hvalue, hoperator, htext, Option.map_some]
    exact congrArg some hmake

end LogQuery
