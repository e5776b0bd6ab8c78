import LogQuery.Text

/-! Operators and types of the filters that a drilldown shows. -/
namespace LogQuery

/-- An operator that is none. -/
structure UnknownOperator where
  text : Text

def UnknownOperator.message (u : UnknownOperator) : String :=
  "unknown operator `" ++ String.ofList u.text ++ "`"

inductive Comparison where
  | equal | notEqual | regexEqual | regexNotEqual | greater | less | greaterEqual | lessEqual
  deriving DecidableEq, Repr

namespace Comparison

def symbol : Comparison → String
  | equal => "="
  | notEqual => "!="
  | regexEqual => "=~"
  | regexNotEqual => "!~"
  | greater => ">"
  | less => "<"
  | greaterEqual => ">="
  | lessEqual => "<="

def all : List Comparison :=
  [equal, notEqual, regexEqual, regexNotEqual, greater, less, greaterEqual, lessEqual]

def ofText (t : Text) : Except UnknownOperator Comparison :=
  match all.find? fun op => op.symbol.toList = t with
  | some op => .ok op
  | none => .error ⟨t⟩

theorem ofText_symbol (op : Comparison) : ofText op.symbol.toList = .ok op := by
  cases op <;> rfl

theorem ofText_ok {t : Text} {op : Comparison} (h : ofText t = .ok op) :
    t = op.symbol.toList := by
  unfold ofText at h
  split at h
  · next o ho =>
    cases h
    have ht := List.find?_some ho
    simp only [decide_eq_true_eq] at ht
    exact ht.symm
  · cases h

/-- The operators that a stream selector accepts. -/
def isMatcher : Comparison → Bool
  | equal | notEqual | regexEqual | regexNotEqual => true
  | _ => false

end Comparison

inductive LineOp where
  | contains | lacks | regexMatches | regexLacks
  deriving DecidableEq, Repr

namespace LineOp

def symbol : LineOp → String
  | contains => "|="
  | lacks => "!="
  | regexMatches => "|~"
  | regexLacks => "!~"

def all : List LineOp := [contains, lacks, regexMatches, regexLacks]

def isRegex : LineOp → Bool
  | regexMatches | regexLacks => true
  | _ => false

end LineOp

inductive PatternOp where
  | fits | unlike
  deriving DecidableEq, Repr

namespace PatternOp

def symbol : PatternOp → String
  | fits => "|>"
  | unlike => "!>"

def all : List PatternOp := [fits, unlike]

end PatternOp

/-- Where a label comes from. -/
inductive LabelType where
  | indexed | structuredMetadata | parsed
  deriving DecidableEq, Repr

namespace LabelType

def name : LabelType → String
  | indexed => "Indexed"
  | structuredMetadata => "StructuredMetadata"
  | parsed => "Parsed"

def all : List LabelType := [indexed, structuredMetadata, parsed]

/-- The one-letter codes that a log store reports. -/
def ofCode? (code : Text) : Option LabelType :=
  if code = ['I'] then some indexed
  else if code = ['S'] then some structuredMetadata
  else if code = ['P'] then some parsed
  else none

end LabelType

/-- The parsers that run before a field filter. -/
inductive FieldParser where
  | logfmt | json | mixed | structuredMetadata
  deriving DecidableEq, Repr

namespace FieldParser

def name : FieldParser → String
  | logfmt => "logfmt"
  | json => "json"
  | mixed => "mixed"
  | structuredMetadata => "structuredMetadata"

def all : List FieldParser := [logfmt, json, mixed, structuredMetadata]

end FieldParser

/-- Codes of label types by label. -/
abbrev LabelTypes := List (Text × Text)

def LabelTypes.get? (types : LabelTypes) (label : Text) : Option LabelType :=
  (types.lookup label).bind LabelType.ofCode?

end LogQuery
