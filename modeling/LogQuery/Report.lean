import LogQuery.Batch
import LogQuery.Drilldown.Json
import LogQuery.Format
import LogQuery.Json.Printer
import LogQuery.Query
import LogQuery.Text.Quoted

/-! What the commands print, in either format. -/
namespace LogQuery

def Text.unlines (ts : List Text) : Text := Text.join ['\n'] ts

def Text.words (ts : List Text) : Text := Text.join [' '] ts

namespace Report

def element (query : Text) (e : Element) : Text :=
  e.kind.name.toList ++ '@' :: Text.ofNat e.span.start ++ ['.', '.'] ++ Text.ofNat e.span.stop
    ++ ' ' :: Text.quoted (e.span.text query)

def elementJson (query : Text) (e : Element) : Json :=
  .record [("kind", .ofString e.kind.name), ("from", .ofNat e.span.start),
    ("to", .ofNat e.span.stop), ("text", .string (e.span.text query))]

/-- The elements of some kinds, or of all if none is given. -/
def nodes (query : Text) (kinds : List Kind) (format : Format) : Text :=
  let found := elements query (if kinds.isEmpty then none else some kinds)
  match format with
  | .text => Text.unlines (found.map (element query))
  | .json => (Json.list (elementJson query) found).render

/-- A matcher without values ends with its operator. -/
def matcher (m : Matcher) : Text :=
  Text.trimEnd (Text.words [m.place.name.toList, m.key, m.op.symbol.toList,
    Text.words (m.values.map Text.quoted)])

def matcherLines (ms : List Matcher) : Text := Text.unlines (ms.map matcher)

def matchers (query : Text) (format : Format) : Text :=
  let found := LogQuery.matchers query
  match format with
  | .text => matcherLines found
  | .json => (Json.list Matcher.toJson found).render

def stage (query : Text) (format : Format) : Text :=
  match format with
  | .text => (parserStage? query).getD "none".toList
  | .json => (Json.record [("parser", .ofOption .string (parserStage? query))]).render

def labelFilter (f : LabelFilter) : Text :=
  "label   ".toList ++ Text.words [f.key, f.operator.symbol.toList, Text.quoted f.value]
    ++ [' ', '('] ++ f.labelType.name.toList ++ [')']

def lineFilter (f : LineFilter) : Text :=
  "line    ".toList ++ Text.words [f.key, f.operator.symbol.toList, Text.quoted f.value]

def parserName (p : Option FieldParser) : Text :=
  ((p.map FieldParser.name).getD "no parser").toList

def fieldFilter (f : FieldFilter) : Text :=
  "field   ".toList ++ Text.words [f.key, f.operator.symbol.toList, Text.quoted f.value]
    ++ [' ', '('] ++ f.labelType.name.toList ++ [',', ' '] ++ parserName f.parser ++ [')']

def patternFilter (f : PatternFilter) : Text :=
  "pattern ".toList ++ Text.words [f.operator.symbol.toList, Text.quoted f.value]

def drilldownLines (d : Drilldown) : List Text :=
  d.labels.map labelFilter ++ d.lines.map lineFilter ++ d.fields.map fieldFilter
    ++ d.patterns.map patternFilter

def filters (query : Text) (types : LabelTypes) (format : Format) : Text :=
  match format with
  | .text => Text.unlines (drilldownLines (drilldown query types))
  | .json => (drilldown query types).toJson.render

def check (query label : Text) (format : Format) : Text :=
  let service := serviceName? query label
  match format with
  | .text =>
    Text.unlines [
      "valid: ".toList ++ (if isValid query then "true" else "false").toList,
      "kind: ".toList ++ (querySort query).name.toList,
      "service: ".toList ++ service.getD "none".toList]
  | .json =>
    (Json.record [("kind", .ofString (querySort query).name),
      ("service", .ofOption .string service), ("valid", .bool (isValid query))]).render

/-- A query behind its place. -/
def savedPlace (q : SavedQuery) : Text :=
  q.file ++ ':' :: Text.ofNat q.line ++ [':', ' '] ++ q.query

/-- A line of a matcher, set off from the query above it. -/
def indented (line : Text) : Text := ' ' :: ' ' :: line

/-- A query with its place, and below it the lines of its matchers. -/
def savedQuery (q : SavedQuery) : Text :=
  savedPlace q ++ (Text.lines (matcherLines q.matchers)).flatMap fun line => '\n' :: indented line

def savedQueryJson (q : SavedQuery) : Json :=
  .record [("file", .string q.file), ("line", .ofNat q.line), ("query", .string q.query),
    ("matchers", .list Matcher.toJson q.matchers)]

def batch? (files : List (Text × Option Text)) (format : Format) : Option Text :=
  (LogQuery.batch? files).map fun queries =>
    match format with
    | .text => Text.unlines (queries.map savedQuery)
    | .json => (Json.list savedQueryJson queries).render

end Report
end LogQuery
