import LogQuery.Proofs.Lines.Search
import LogQuery.Proofs.Token.Adjacent
import LogQuery.Proofs.Token.Escaped

/-! The value of a filter on lines against the value that is meant. Between backticks every
character is meant as it is. Between double quotes a backslash is doubled, and a quote has one in
front of it. -/
namespace LogQuery

open LineEntry (caseMark unescape)

/-- The one filter on lines for a value. A regex that says so anywhere ignores case, and the first
mark that says so is no part of it. -/
inductive LineFilter.Means (op : LineOp) (s : Text) : LineFilter → Prop
  | insensitive (before after : Text) (hop : op.isRegex = true)
    (hs : s = before ++ caseMark ++ after)
    (hfirst : ∀ t u, s = t ++ caseMark ++ u → before.length ≤ t.length) :
    Means op s ⟨"caseInsensitive".toList, op, before ++ after⟩
  | sensitive (h : op.isRegex = true → ¬ caseMark <:+: s) :
    Means op s ⟨"caseSensitive,0".toList, op, s⟩

section Values

variable {op : LineOp} {s value quote : Text}

/-- A filter means a value if its escapes are undone to that value, and if these hide no mark and
make none. -/
theorem lineFilter_means (hplain : unescape quote op value = s)
    (hmark : op.isRegex = true → (caseMark <:+: value ↔ caseMark <:+: s)) :
    (LineEntry.lineFilter value quote 0 op).Means op s := by
  rw [LineEntry.lineFilter, hplain]
  by_cases h : op.isRegex = true ∧ caseMark <:+: value
  · obtain ⟨before, after, hs, hremoved, hfirst⟩ :=
      Text.removeFirst_spec ((hmark h.1).mp h.2)
    rw [h.1, (Text.hasInfix_iff caseMark value).mpr h.2, hremoved]
    exact .insensitive before after h.1 hs hfirst
  · have hn : ¬ (op.isRegex && caseMark.hasInfix value) = true := by
      rwa [Bool.and_eq_true, Text.hasInfix_iff]
    rw [if_neg hn]
    exact .sensitive fun hop hin => h ⟨hop, (hmark hop).mpr hin⟩

end Values

/-- A text in double quotes, as one string. -/
def quotedLexeme (marks : List Char) (s : Text) (hb : '\\' ∈ marks) (hn : '\n' ∉ marks)
    (hq : '"' ∈ s → '"' ∈ marks) : Lexeme .string where
  text := quotedText marks s
  lexes := Token.lex_quoted hb hn hq

theorem quoted_value (marks : List Char) (s : Text) :
    (⟨.string, quotedText marks s⟩ : Token).value = Text.escaped marks s := by
  rw [Token.value, quotedText, List.tail_cons, List.dropLast_concat]

theorem blank_all : ∀ b ∈ [' '], Token.isBlank b = true := by simp [Token.isBlank]

/-- The filters of a query that searches for a text in double quotes. -/
theorem quoted_found (marks : List Char) {s : Text} (hs : s ≠ []) (hb : '\\' ∈ marks)
    (hn : '\n' ∉ marks) (hq : '"' ∈ s → '"' ∈ marks) (op : LineOp) (types : LabelTypes) :
    (drilldown (searchText [' '] (.line op) [' '] (quotedText marks s)) types).lines =
      [LineEntry.lineFilter (Text.escaped marks s) ['"'] 0 op] := by
  have hvalue : (quotedLexeme marks s hb hn hq).token.value = Text.escaped marks s :=
    quoted_value marks s
  have hx : (quotedLexeme marks s hb hn hq).token.value ≠ [] := by
    rw [hvalue]
    exact Text.escaped_ne_nil hs marks
  have hfound := (search_found (.line op) _ hx types blank_all blank_all).1
  rw [hvalue] at hfound
  exact hfound

/-- The value of a filter on lines that contain a text, or lack it, is that text with a backslash
before each double quote that has none: the text that is meant just if each of its double quotes has
a backslash right before it. -/
theorem exact_value (op : LineOp) (hop : op.isRegex = false) (s : Text) (hs : s ≠ [])
    (types : LabelTypes) :
    (drilldown (searchText [' '] (.line op) [' '] (quotedText Text.quoteMarks s)) types).lines =
        [⟨"caseSensitive,0".toList, op, Text.shielded s⟩] ∧
      (Text.shielded s = s ↔ Text.Shielded s) := by
  refine ⟨?_, Text.shielded_iff s⟩
  have hplain : unescape ['"'] op (Text.escaped Text.quoteMarks s) = Text.shielded s := by
    rw [unescape, if_neg (by simp), hop, if_neg Bool.false_ne_true]
    exact Text.replace_unquoted s
  rw [quoted_found Text.quoteMarks hs (by decide) (by decide) (fun _ => by decide) op types,
    LineEntry.lineFilter, hplain, hop]
  rfl

/-- A quote behind a backslash, and one that is not. -/
theorem exact_value_mixed :
    (drilldown (searchText [' '] (.line .lacks) [' ']
        (quotedText Text.quoteMarks "\\\" \"".toList)) []).lines =
      [⟨"caseSensitive,0".toList, .lacks, Text.shielded "\\\" \"".toList⟩] :=
  (exact_value .lacks rfl "\\\" \"".toList (by decide) []).1

example : Text.shielded "\\\" \"".toList = "\\\" \\\"".toList := by decide +kernel

/-- A lone quote keeps the backslash that was put before it. -/
theorem exact_value_kept :
    ¬ ∀ (op : LineOp) (s : Text) (types : LabelTypes), op.isRegex = false → s ≠ [] →
      ∃ key, (drilldown (searchText [' '] (.line op) [' ']
        (quotedText Text.quoteMarks s)) types).lines = [⟨key, op, s⟩] := by
  intro hall
  obtain ⟨key, hkey⟩ := hall .contains ['"'] [] rfl (by decide)
  have hkept : (drilldown (searchText [' '] (.line .contains) [' ']
      (quotedText Text.quoteMarks ['"'])) []).lines.map LineFilter.value = [['\\', '"']] := by
    decide +kernel
  rw [hkey] at hkept
  cases hkept

/-- A regex without double quotes, with its backslashes doubled between double quotes, is the one
that is meant: the doubling makes no mark that says to ignore case, and hides none. -/
theorem regex_value (op : LineOp) (hop : op.isRegex = true) (s : Text) (hs : s ≠ [])
    (hq : '"' ∉ s) (types : LabelTypes) :
    ∃ f, (drilldown (searchText [' '] (.line op) [' '] (quotedText ['\\'] s)) types).lines = [f] ∧
      f.Means op s := by
  refine ⟨_, quoted_found ['\\'] hs (by decide) (by decide) (fun h => (hq h).elim) op types, ?_⟩
  apply lineFilter_means
  · rw [unescape, if_neg (by simp), hop, if_pos rfl, Text.replace_escaped]
  · exact fun _ => Text.infix_escaped (by simp [caseMark]) (by simp [caseMark])

theorem regex_value_marked :
    ∃ f, (drilldown (searchText [' '] (.line .regexLacks) [' ']
        (quotedText ['\\'] "\\(?i)\\".toList)) []).lines = [f] ∧
      f.Means .regexLacks "\\(?i)\\".toList :=
  regex_value .regexLacks rfl "\\(?i)\\".toList (by decide) (by decide) []

/-- A text between backticks is the value of a filter on lines as it stands, but that a regex loses
the first mark that says to ignore case. A filter on patterns loses the backslash of each double
quote with a backslash before it, so that its value is the text itself just if there is none. -/
theorem raw_value (v : RawText) (hv : v.text ≠ []) (types : LabelTypes) :
    (∀ op : LineOp, ∃ f,
        (drilldown (searchText [' '] (.line op) [] v.token.text) types).lines = [f] ∧
        (drilldown (searchText [' '] (.line op) [] v.token.text) types).patterns = [] ∧
        f.Means op v.text) ∧
      (∀ op : PatternOp,
        (drilldown (searchText [' '] (.pattern op) [] v.token.text) types).lines = [] ∧
        (drilldown (searchText [' '] (.pattern op) [] v.token.text) types).patterns =
          [⟨op, Text.replace v.text ['\\', '"'] ['"']⟩]) ∧
      (Text.replace v.text ['\\', '"'] ['"'] = v.text ↔ ¬ ['\\', '"'] <:+: v.text) := by
  have hvalue : v.lexeme.token.value = v.text := by
    rw [Token.value]
    exact List.dropLast_concat
  have hx : v.lexeme.token.value ≠ [] := by rwa [hvalue]
  have hfound : ∀ o : LineEntry.Op,
      (drilldown (searchText [' '] o [] v.token.text) types).lines =
          (o.entry v.text ['\x60'] 0).line?.toList ∧
        (drilldown (searchText [' '] o [] v.token.text) types).patterns =
          (o.entry v.text ['\x60'] 0).pattern?.toList := by
    intro o
    have h := search_found o v.lexeme hx types blank_all (List.forall_mem_nil _)
    rw [hvalue] at h
    exact h
  refine ⟨fun op => ⟨_, (hfound (.line op)).1, (hfound (.line op)).2, ?_⟩,
    fun op => hfound (.pattern op), Text.replace_eq_self (by decide) v.text⟩
  apply lineFilter_means
  · rw [unescape, if_pos (by decide)]
  · exact fun _ => Iff.rfl

/-- Backslashes and quotes, a comment sign and the mark of a regex. -/
def rawSample : RawText where
  text := "\\\" # (?i)\n\\".toList
  closed := by decide

theorem raw_value_sample :
    rawSample.text ≠ [] ∧
      ∀ op : LineOp, ∃ f,
        (drilldown (searchText [' '] (.line op) [] rawSample.token.text) []).lines = [f] ∧
        (drilldown (searchText [' '] (.line op) [] rawSample.token.text) []).patterns = [] ∧
        f.Means op rawSample.text := by
  have h : rawSample.text ≠ [] := by decide
  exact ⟨h, (raw_value rawSample h []).1⟩

/-- A pattern loses a backslash that is meant. -/
theorem raw_value_lost :
    ¬ ∀ (v : RawText) (types : LabelTypes), v.text ≠ [] → ∀ op : PatternOp,
      (drilldown (searchText [' '] (.pattern op) [] v.token.text) types).patterns =
        [⟨op, v.text⟩] := by
  intro hall
  have hkept := hall ⟨['\\', '"'], by decide⟩ [] (by decide) .fits
  have hlost : (drilldown (searchText [' '] (.pattern .fits) []
      (RawText.token ⟨['\\', '"'], by decide⟩).text) []).patterns = [⟨.fits, ['"']⟩] := by
    decide +kernel
  rw [hlost] at hkept
  cases hkept

end LogQuery
