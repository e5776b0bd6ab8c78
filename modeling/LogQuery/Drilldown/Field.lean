import LogQuery.Drilldown.Operator
import LogQuery.Element.Walk

/-! Filters on the fields of parsed lines. -/
namespace LogQuery

structure FieldFilter where
  key : Text
  operator : Comparison
  value : Text
  labelType : LabelType
  parser : Option FieldParser
  deriving DecidableEq, Repr

/-- A filter, or the text of one whose operator does not compare numbers. -/
inductive FieldEntry where
  | field (filter : FieldFilter)
  | unknown (text : Text)

namespace FieldEntry

def stringOperators : List (Kind × Comparison) :=
  [(.eq, .equal), (.neq, .notEqual), (.re, .regexEqual), (.nre, .regexNotEqual)]

def numberOperators : List (Kind × Comparison) :=
  [(.lte, .lessEqual), (.lss, .less), (.gte, .greaterEqual), (.gtr, .greater)]

def operator? (operators : List (Kind × Comparison)) (filter : Element) : Option Comparison :=
  (operators.find? fun (k, _) => (filter.first? k).isSome).map Prod.snd

/-- The parsers of the query up to an offset. -/
def parserBefore? (query : Text) (stop : Nat) : Option FieldParser :=
  let before := (query.slice? 0 stop).getD query
  match hasElement before (.keyword .logfmt), hasElement before (.keyword .json) with
  | true, true => some .mixed
  | true, false => some .logfmt
  | false, true => some .json
  | false, false => none

/-- Without a parser every field is metadata; with one, the known types count. -/
def labelType (types : LabelTypes) (key : Text) : Option FieldParser → LabelType
  | none => .structuredMetadata
  | some _ => (types.get? key).getD .parsed

def make (query : Text) (types : LabelTypes) (filter name : Element) (op : Comparison)
    (value : Text) : FieldEntry :=
  let key := name.span.text query
  let parser := parserBefore? query filter.span.stop
  .field ⟨key, op, value, labelType types key parser, parser⟩

/-- The first string of a filter and its operator, or else its first number. -/
def ofFilter? (query : Text) (types : LabelTypes) (filter : Element) : Option FieldEntry :=
  match filter.first? .identifier, filter.first? .string with
  | none, _ => none
  | some name, some string =>
    (operator? stringOperators filter).map fun op =>
      make query types filter name op (string.span.unquoted query)
  | some name, none =>
    ([.number, .duration, .bytes].findSome? filter.first?).map fun number =>
      match operator? numberOperators filter with
      | some op => make query types filter name op (number.span.text query)
      | none => .unknown (filter.span.text query)

def isErrorCheck (query : Text) (filter : Element) : Bool :=
  "__error__".toList.isPrefixOf (filter.span.text query)

/-- The left-most comparison of every label filter that is no check for errors. -/
def ofQuery (query : Text) (types : LabelTypes) : List FieldEntry :=
  ((leftLeaves query [.labelFilter]).filter fun f => !isErrorCheck query f).filterMap
    (ofFilter? query types)

def field? : FieldEntry → Option FieldFilter
  | field f => some f
  | _ => none

def unknown? : FieldEntry → Option Text
  | unknown t => some t
  | _ => none

end FieldEntry
end LogQuery
