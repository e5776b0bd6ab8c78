import LogQuery.Drilldown.Operator
import LogQuery.Element.Walk

/-! Filters on lines, by text or by pattern. -/
namespace LogQuery

structure LineFilter where
  key : Text
  operator : LineOp
  value : Text
  deriving DecidableEq, Repr

structure PatternFilter where
  operator : PatternOp
  value : Text
  deriving DecidableEq, Repr

/-- A filter of either sort, or the text of one without an operator. -/
inductive LineEntry where
  | line (filter : LineFilter)
  | pattern (filter : PatternFilter)
  | unknown (text : Text)

namespace LineEntry

inductive Op where
  | line (op : LineOp)
  | pattern (op : PatternOp)

/-- Operators by the kinds of their tokens, in the order in which they are looked for. -/
def operators : List (Kind × Op) :=
  [(.pipeExact, .line .contains), (.neq, .line .lacks), (.nre, .line .regexLacks),
    (.pipeMatch, .line .regexMatches), (.pipePattern, .pattern .fits), (.npa, .pattern .unlike)]

def operator? (filter : Element) : Option Op :=
  (operators.find? fun (k, _) => (filter.first? k).isSome).map Prod.snd

mutual

/-- The strings of a filter and of those joined to it. An address range gives none. -/
def strings : Element → List Element
  | .mk _ _ cs =>
    (if cs.any (·.kind = .filterOp) then [] else (cs.find? (·.kind = .string)).toList)
      ++ joined cs

def joined : List Element → List Element
  | [] => []
  | e :: es => if e.kind = .orFilter then strings e else joined es

end

def caseMark : Text := "(?i)".toList

/-- A value as it is matched. Only double quotes have escapes, and in a regex only backslashes. -/
def unescape (quote : Text) (op : LineOp) (value : Text) : Text :=
  if quote ≠ ['"'] then value
  else if op.isRegex then value.replace ['\\', '\\'] ['\\']
  else (value.replace ['\\', '\\', '"'] ['"']).replace ['\\', '\\'] ['\\']

/-- A regex that ignores case loses the mark that says so. Other filters are numbered. -/
def lineFilter (value quote : Text) (index : Nat) (op : LineOp) : LineFilter :=
  let plain := unescape quote op value
  if op.isRegex && caseMark.hasInfix value then
    ⟨"caseInsensitive".toList, op, plain.removeFirst caseMark⟩
  else ⟨"caseSensitive,".toList ++ Text.ofNat index, op, plain⟩

def ofString? (query : Text) (filter : Element) (index : Nat) (string : Element) :
    Option LineEntry :=
  let span := string.span
  let value := span.unquoted query
  if value.isEmpty then none
  else
    match operator? filter with
    | some (.line op) =>
      let quote := (query.slice? span.start (span.start + 1)).getD []
      some (.line (lineFilter value quote index op))
    | some (.pattern op) => some (.pattern ⟨op, value.replace ['\\', '"'] ['"']⟩)
    | none => some (.unknown (filter.span.text query))

def ofFilter (query : Text) (filter : Element) (index : Nat) : List LineEntry :=
  (strings filter).filterMap (ofString? query filter index)

/-- All entries, numbered by the filters of the query. -/
def ofQuery (query : Text) : List LineEntry :=
  (elements query (some [.lineFilter])).zipIdx.flatMap fun (filter, index) =>
    ofFilter query filter index

def line? : LineEntry → Option LineFilter
  | line f => some f
  | _ => none

def pattern? : LineEntry → Option PatternFilter
  | pattern f => some f
  | _ => none

def unknown? : LineEntry → Option Text
  | unknown t => some t
  | _ => none

end LineEntry
end LogQuery
