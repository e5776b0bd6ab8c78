import LogQuery.Drilldown
import LogQuery.Proofs.Token.Adjacent
import LogQuery.Proofs.Tree.Airy

/-! Queries that a drilldown switches on and off in parts: what they are made of, how they are
written, and the filters that they stand for. -/
namespace LogQuery

open Kind (mark)
open Grammar (matcherOps lineOps unitKinds comparisonOps)

namespace Comparison

def kind : Comparison → Kind
  | equal => .eq
  | notEqual => .neq
  | regexEqual => .re
  | regexNotEqual => .nre
  | greater => .gtr
  | less => .lss
  | greaterEqual => .gte
  | lessEqual => .lte

theorem matcher_kind : (op : Comparison) → op.isMatcher = true → op.kind ∈ matcherOps := by
  intro op h
  cases op <;> first | decide | cases h

theorem comparison_kind : (op : Comparison) → op.isMatcher = false → op.kind ∈ comparisonOps := by
  intro op h
  cases op <;> first | decide | cases h

/-- The sign of an operator is spelled as the operator. -/
theorem mark_text (op : Comparison) : (mark op.kind).text = op.symbol.toList := by
  cases op <;> rfl

end Comparison

namespace LineOp

def kind : LineOp → Kind
  | contains => .pipeExact
  | lacks => .neq
  | regexMatches => .pipeMatch
  | regexLacks => .nre

theorem line_kind (op : LineOp) : op.kind ∈ lineOps := by
  cases op <;> decide

theorem mark_text (op : LineOp) : (mark op.kind).text = op.symbol.toList := by
  cases op <;> rfl

end LineOp

/-- A label of the stream selector with the value it is to have. -/
structure LabelClause where
  name : Lexeme .identifier
  op : Comparison
  value : RawText
  matches_value : op.isMatcher = true
  filled : value.text ≠ []

namespace LabelClause

variable (c : LabelClause)

/-- Written without blanks. -/
def text : Text := c.name.text ++ c.op.symbol.toList ++ c.value.token.text

def filter : LabelFilter := ⟨c.name.text, c.op, c.value.text, .indexed⟩

def matching : Matching :=
  ⟨c.name, ⟨c.op.kind, c.op.matcher_kind c.matches_value⟩, c.value.lexeme⟩

end LabelClause

/-- A text that lines are searched for. -/
structure LineClause where
  op : LineOp
  value : RawText
  filled : value.text ≠ []

namespace LineClause

variable (c : LineClause)

def text : Text := " ".toList ++ c.op.symbol.toList ++ " ".toList ++ c.value.token.text

/-- The filter of the clause with a number: a regex that begins to ignore case somewhere loses the
first mark that says so, and its number with it. -/
inductive Gives (number : Nat) : LineFilter → Prop
  | insensitive (before after : Text) (hop : c.op.isRegex = true)
      (hvalue : c.value.text = before ++ "(?i)".toList ++ after)
      (hfirst : ∀ s u, c.value.text = s ++ "(?i)".toList ++ u → before.length ≤ s.length) :
      Gives number ⟨"caseInsensitive".toList, c.op, before ++ after⟩
  | sensitive (hplain : ¬ (c.op.isRegex = true ∧ "(?i)".toList <:+: c.value.text)) :
      Gives number ⟨"caseSensitive,".toList ++ Nat.toDigits 10 number, c.op, c.value.text⟩

def test : LineTest := ⟨⟨c.op.kind, c.op.line_kind⟩, .text c.value.lexeme, []⟩

end LineClause

/-- Which parsers run on the lines. -/
inductive ParserChoice where
  | none
  | json
  | logfmt
  | both

namespace ParserChoice

def words : ParserChoice → List Keyword
  | none => []
  | json => [.json]
  | logfmt => [.logfmt]
  | both => [.json, .logfmt]

def text (p : ParserChoice) : Text := p.words.flatMap fun w => " | ".toList ++ w.text

/-- How the fields behind the parsers are said to be parsed. -/
def parser? : ParserChoice → Option FieldParser
  | none => .none
  | json => some .json
  | logfmt => some .logfmt
  | both => some .mixed

end ParserChoice

/-- What a field is compared with. -/
inductive FieldTest where
  | matching (op : Comparison) (value : RawText) (h : op.isMatcher = true)
  | amount (op : Comparison) (unit : Sign unitKinds) (value : Lexeme unit.val)
      (h : op.isMatcher = false)

namespace FieldTest

def op : FieldTest → Comparison
  | matching op _ _ => op
  | amount op _ _ _ => op

/-- The value as it is written. -/
def written : FieldTest → Token
  | matching _ v _ => v.token
  | amount _ _ x _ => x.token

/-- The value as it is meant. -/
def value : FieldTest → Text
  | matching _ v _ => v.text
  | amount _ _ x _ => x.text

end FieldTest

/-- A test of a field, neither opening a range of numbers nor checking for errors. -/
structure FieldClause where
  name : Lexeme .identifier
  test : FieldTest
  no_unwrap : name.text ≠ "unwrap".toList
  no_error : ¬ "__error__".toList <+: name.text

namespace FieldClause

variable (c : FieldClause)

/-- Written with single blanks. -/
def body : Text :=
  c.name.text ++ " ".toList ++ c.test.op.symbol.toList ++ " ".toList ++ c.test.written.text

def text : Text := " | ".toList ++ c.body

/-- Without a parser every field is metadata; with one, it is of the type that is known. -/
def filter (types : LabelTypes) (parser : Option FieldParser) : FieldFilter :=
  ⟨c.name.text, c.test.op, c.test.value,
    match parser with
    | none => .structuredMetadata
    | some _ => (types.get? c.name.text).getD .parsed,
    parser⟩

def labelTest : LabelTest :=
  match c.test with
  | .matching op v h => .matching ⟨c.name, ⟨op.kind, op.matcher_kind h⟩, v.lexeme⟩
  | .amount op unit x h => .amount c.name ⟨op.kind, op.comparison_kind h⟩ unit x

end FieldClause

/-- A query of labels, searches in lines, parsers and tests of fields, in this order. -/
structure DrilldownSource where
  labels : List LabelClause
  lines : List LineClause
  parser : ParserChoice
  fields : List FieldClause

namespace DrilldownSource

variable (s : DrilldownSource)

def selectorText : Text :=
  "\x7b".toList ++ Text.join ", ".toList (s.labels.map LabelClause.text) ++ "\x7d".toList

/-- The query up to its fields. -/
def head : Text := s.selectorText ++ s.lines.flatMap LineClause.text ++ s.parser.text

def text : Text := s.head ++ s.fields.flatMap FieldClause.text

def wordStage (w : Keyword) : Piped := if w = .json then .json [] else .logfmt [] []

def fieldStage (c : FieldClause) : Piped := .label (.one (.one (.test c.labelTest)))

/-- The stages behind bars. -/
def piped : List Piped := s.parser.words.map wordStage ++ s.fields.map fieldStage

/-- The same as a query of the grammar. -/
def sentence : Sentence where
  matchers := s.labels.map LabelClause.matching
  comma := false
  stages := s.lines.map (.line ·.test) ++ s.piped.map .piped

/-- One clause of each sort. -/
def sample : DrilldownSource where
  labels := [⟨⟨"env".toList, by decide⟩, .regexEqual, ⟨"a|b".toList, by decide⟩, rfl, by decide⟩]
  lines := [⟨.regexLacks, ⟨"x (?i)y".toList, by decide⟩, by decide⟩]
  parser := .both
  fields := [
    ⟨⟨"n".toList, by decide⟩, .matching .notEqual ⟨[], by decide⟩ rfl, by decide, by decide⟩,
    ⟨⟨"size".toList, by decide⟩, .amount .greater ⟨.bytes, by decide⟩ ⟨"5kb".toList, by decide⟩
      rfl, by decide, by decide⟩]

example : sample.text =
    "\x7benv=~\x60a|b\x60\x7d !~ \x60x (?i)y\x60 ".toList ++
      "| json | logfmt | n != \x60\x60 | size > 5kb".toList := by
  decide

end DrilldownSource

end LogQuery
